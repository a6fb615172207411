import ConstantFlow.Proofs.Propagation.Stability

/-!
# How often what arrives can change

What arrives at a node goes up from visit to visit, although what leaves a node may come down again.
A value can go up at most twice, so a visit that changes anything that arrives uses up some of a
store that the number of nodes and variables limits, whatever the order of the visits and however
many of them there are.

Main results:

* `card_changes_of_variable_le`: what arrives for one variable at one node changes twice at most
* `climbed_lt_succ`: a change of what arrives uses up some of the store
* `inputs_climb_boundedly`: the number of such changes in a run of any length
-/

namespace ConstantFlow.Propagation

open Worklist

variable {g : FlowGraph}

/-! ## Counting steps up -/

/-- A measure that never falls bounds the number of steps at which it rises. -/
theorem card_rises_le {f : Nat → Nat} (hf : ∀ i, f i ≤ f (i + 1)) {P : Nat → Prop}
    [DecidablePred P] (hP : ∀ i, P i → f i < f (i + 1)) (k : Nat) :
    ((Finset.range k).filter P).card ≤ f k := by
  induction k with
  | zero => exact Nat.zero_le _
  | succ k ih =>
    have hle := hf k
    rw [Finset.range_add_one, Finset.filter_insert]
    by_cases hk : P k
    · have hlt := hP k hk
      rw [if_pos hk, Finset.card_insert_of_notMem (by simp)]
      omega
    · rw [if_neg hk]
      omega

/-! ## One variable at one node -/

theorem get_input_le_succ (hg : g.WellFormed) (k : Nat) (n : Node) (x : Var) :
    ((after analysis g k).input analysis n).get x ≤
      ((after analysis g (k + 1)).input analysis n).get x :=
  monotone_input hg n (Nat.le_succ k) x

/-- What arrives about a variable changes at most twice. -/
theorem card_changes_of_variable_le (hg : g.WellFormed) (n : Node) (x : Var) (k : Nat) :
    ((Finset.range k).filter fun i =>
      ((after analysis g (i + 1)).input analysis n).get x ≠
        ((after analysis g i).input analysis n).get x).card ≤ 2 := by
  let f : Nat → Nat := fun i => (((after analysis g i).input analysis n).get x).height
  have hf : ∀ i, f i ≤ f (i + 1) := fun i => Value.height_mono (get_input_le_succ hg i n x)
  refine (card_rises_le hf ?_ k).trans (Value.height_le_two _)
  intro i hne
  refine lt_of_le_of_ne (hf i) fun heq => hne ?_
  exact (Value.eq_of_height_eq (get_input_le_succ hg i n x) heq).symm

/-! ## All variables at all nodes -/

/-- A visit that changes what arrives somewhere climbs. -/
theorem climbed_lt_succ (hg : g.WellFormed) {k : Nat} {n : Node}
    (h : (after analysis g (k + 1)).input analysis n ≠ (after analysis g k).input analysis n) :
    climbed g (after analysis g k) < climbed g (after analysis g (k + 1)) := by
  refine lt_of_le_of_ne (monotone_climbed hg (Nat.le_succ k)) fun heq => h ?_
  rcases after_succ_cases (a := analysis) hg k with ⟨_, hk⟩ | ⟨m, rest, hq, hk⟩
  · rw [hk]
  · rw [hk] at heq ⊢
    exact input_next_eq_of_climbed_eq hg (reached_after hg k) hq heq n

theorem card_nodes_erase_entry (hg : g.WellFormed) :
    (g.nodes.toFinset.erase .entry).card = g.size - 1 := by
  rw [Finset.card_erase_of_mem (List.mem_toFinset.mpr hg.entry_mem),
    List.toFinset_card_of_nodup hg.nodup_nodes]
  rfl

/-- In the course of a run, however long, what arrives at a node about a variable only goes up, and
so changes at most twice. The visits that change anything that arrives at any node are at most two
for each node but the entry and each variable that is a tracked parameter or is assigned. -/
theorem inputs_climb_boundedly {g : FlowGraph} (hg : g.Built) (k : Nat) :
    (∀ n x, ((after analysis g k).input analysis n).get x ≤
      ((after analysis g (k + 1)).input analysis n).get x) ∧
    (∀ n x, ((Finset.range k).filter fun i =>
      ((after analysis g (i + 1)).input analysis n).get x ≠
        ((after analysis g i).input analysis n).get x).card ≤ 2) ∧
    ((Finset.range k).filter fun i => ∃ n ∈ g.nodes,
      (after analysis g (i + 1)).input analysis n ≠
        (after analysis g i).input analysis n).card ≤ 2 * (g.size - 1) * g.variables.card := by
  have hwf := hg.wellFormed
  refine ⟨get_input_le_succ hwf k, fun n x => card_changes_of_variable_le hwf n x k, ?_⟩
  have hrises : ∀ i, (∃ n ∈ g.nodes, (after analysis g (i + 1)).input analysis n ≠
      (after analysis g i).input analysis n) →
      climbed g (after analysis g i) < climbed g (after analysis g (i + 1)) := by
    rintro i ⟨n, _, hne⟩
    exact climbed_lt_succ hwf hne
  calc ((Finset.range k).filter fun i => ∃ n ∈ g.nodes,
        (after analysis g (i + 1)).input analysis n ≠
          (after analysis g i).input analysis n).card
      ≤ climbed g (after analysis g k) :=
        card_rises_le (fun i => monotone_climbed hwf (Nat.le_succ i)) hrises k
    _ ≤ (g.nodes.toFinset.erase .entry).card * (g.variables.card * 2) := climbed_le g _
    _ = 2 * (g.size - 1) * g.variables.card := by
        rw [card_nodes_erase_entry hwf, mul_comm g.variables.card, mul_left_comm, mul_assoc]

open Forgetful in
theorem inputs_climb_boundedly_forgetful :
    ((after analysis graph 1).output analysis use).get y = .nac ∧
      ((after analysis graph 4).output analysis use).get y = .undefined ∧
      ((after analysis graph 4).input analysis clear).get y ≤
        ((after analysis graph 5).input analysis clear).get y ∧
      ((Finset.range 20).filter fun i => ∃ n ∈ graph.nodes,
        (after analysis graph (i + 1)).input analysis n ≠
          (after analysis graph i).input analysis n).card ≤ 18 := by
  have hcount : 2 * (graph.size - 1) * graph.variables.card = 18 := by decide
  refine ⟨by decide, by decide, (inputs_climb_boundedly built 4).1 clear y, ?_⟩
  rw [← hcount]
  exact (inputs_climb_boundedly built 20).2.2

end ConstantFlow.Propagation

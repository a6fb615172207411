import ConstantFlow.Proofs.Propagation.Fixpoint
import Mathlib.Algebra.Order.BigOperators.Group.Finset
import Mathlib.Order.OrderIsoNat

/-!
# The facts of a run come to rest

Whether or not the queue ever runs empty, the facts change only finitely often. What arrives at a
node only goes up, at most twice at each of finitely many variables, so from some visit on
everything that arrives has arrived before. By then every node that is still visited lets out what
it let out before.

Main results:

* `monotone_input`: what arrives goes up from visit to visit
* `climbed_le`: it can do so only so often
* `exists_stableFrom`: from some visit on nothing changes any more
-/

namespace ConstantFlow

/-- The variables of which a run may come to know something: tracked parameters and assigned
tracked variables. -/
def FlowGraph.variables (g : FlowGraph) : Finset Var :=
  (g.params.filter Var.tracked ++ g.nodes.filterMap fun n =>
    n.code.definition?.map Prod.fst).toFinset

theorem FlowGraph.mem_variables_of_param {g : FlowGraph} {x : Var} (hx : x ∈ g.params)
    (ht : x.tracked = true) : x ∈ g.variables :=
  List.mem_toFinset.mpr (List.mem_append_left _ (List.mem_filter.mpr ⟨hx, ht⟩))

theorem FlowGraph.mem_variables_of_definition {g : FlowGraph} {n : Node} (hn : n ∈ g.nodes)
    {x : Var} {e : Expr} (h : n.code.definition? = some (x, e)) : x ∈ g.variables :=
  List.mem_toFinset.mpr (List.mem_append_right _ (List.mem_filterMap.mpr ⟨n, hn, by rw [h]; rfl⟩))

namespace Propagation

open Worklist

variable {g : FlowGraph} {s : State Fact}

/-! ## Known variables -/

/-- Nothing becomes known of other variables. -/
theorem get_of_not_mem_variables (hg : g.WellFormed) (h : Reached analysis g s) {x : Var}
    (hx : x ∉ g.variables) (n : Node) :
    (s.input analysis n).get x = .undefined ∧ (s.output analysis n).get x = .undefined := by
  have hinv := h.invariant hg (P := fun s => ∀ n, (s.input analysis n).get x = .undefined ∧
    (s.output analysis n).get x = .undefined) ?_ ?_
  · exact hinv.2 n
  · intro n
    rw [input_start, output_start analysis hg]
    refine ⟨rfl, ?_⟩
    split
    · show (boundary g).get x = .undefined
      rw [get_boundary, if_neg fun hp => hx (FlowGraph.mem_variables_of_param hp.1 hp.2)]
    · rfl
  · intro s n rest hr hs hq ih m
    have hn := hs.head_mem hq
    have hinv := invariant_of_reached hg hr
    have hdef : ∀ e, n.code.definition? ≠ some (x, e) := fun e he =>
      hx (FlowGraph.mem_variables_of_definition hn he)
    have harr : (arrival analysis g s n).get x = .undefined := by
      have hle := (get_arrival_le_iff (g := g) hinv.lawful_output (n := n)
        (v := .undefined)).mpr ⟨le_of_eq (ih n).1, fun p _ => le_of_eq (ih p).2⟩
      exact le_antisymm hle (Value.undefined_le _)
    rw [input_next analysis hs hn, output_next analysis hs hn]
    by_cases hm : m = n
    · rw [if_pos hm, if_pos hm]
      refine ⟨harr, ?_⟩
      show (transfer n.code _ _).1.get x = _
      rw [get_transfer_of_ne hdef (lawful_arrival hinv.lawful_input n), if_pos harr, (ih n).2]
    · rw [if_neg hm, if_neg hm]
      exact ih m

/-! ## What arrives goes up -/

theorem input_le_next (hg : g.WellFormed) (h : Reached analysis g s) {n : Node} {rest : List Node}
    (hq : s.queue = n :: rest) (m : Node) :
    s.input analysis m ≤ (next analysis g s n rest).input analysis m := by
  have hs := h.consistent hg
  rw [input_next analysis hs (hs.head_mem hq)]
  by_cases hm : m = n
  · rw [if_pos hm, hm]
    exact input_le_arrival (invariant_of_reached hg h).lawful_output n
  · rw [if_neg hm]

/-- In the course of a run, what arrives at a node only goes up. -/
theorem monotone_input (hg : g.WellFormed) (n : Node) :
    Monotone fun k => (after analysis g k).input analysis n := by
  refine monotone_nat_of_le_succ fun k => ?_
  rcases after_succ_cases (a := analysis) hg k with ⟨_, hk⟩ | ⟨m, rest, hq, hk⟩
  · rw [hk]
  · rw [hk]
    exact input_le_next hg (reached_after hg k) hq n

/-- A visit at which nothing new arrives leaves what arrives as it is, entry by entry. -/
theorem input_next_eq (hg : g.WellFormed) (h : Reached analysis g s) {n : Node} {rest : List Node}
    (hq : s.queue = n :: rest)
    (hsame : ((next analysis g s n rest).input analysis n).get = (s.input analysis n).get)
    (m : Node) : (next analysis g s n rest).input analysis m = s.input analysis m := by
  have hs := h.consistent hg
  have hinv := invariant_of_reached hg h
  have hin := input_next analysis hs (hs.head_mem hq) rest
  rw [hin, if_pos rfl] at hsame
  rw [hin]
  by_cases hm : m = n
  · -- all that is joined in lies below what has arrived, so the join has nothing to write
    rw [if_pos hm, hm, arrival_eq_foldl]
    apply Fact.foldl_join_eq_self
    · intro k hk
      rcases List.mem_map.mp hk with ⟨p, _, rfl⟩
      exact hinv.lawful_output p
    · intro k hk
      rcases List.mem_map.mp hk with ⟨p, hp, rfl⟩
      have hle := output_le_arrival hinv.lawful_output (FlowGraph.mem_preds_iff.mp hp)
      intro x
      rw [← hsame]
      exact hle x
  · rw [if_neg hm]

/-- How far what arrives has gone up, over all nodes but the entry and all variables. -/
def climbed (g : FlowGraph) (s : State Fact) : Nat :=
  ∑ n ∈ g.nodes.toFinset.erase .entry, ∑ x ∈ g.variables, ((s.input analysis n).get x).height

theorem climbed_le (g : FlowGraph) (s : State Fact) :
    climbed g s ≤ (g.nodes.toFinset.erase .entry).card * (g.variables.card * 2) := by
  have hnode : ∀ n ∈ g.nodes.toFinset.erase .entry,
      ∑ x ∈ g.variables, ((s.input analysis n).get x).height ≤ g.variables.card * 2 :=
    fun n _ => Finset.sum_le_card_nsmul _ _ 2 fun x _ => Value.height_le_two _
  exact Finset.sum_le_card_nsmul _ _ _ hnode

theorem climbed_le_next (hg : g.WellFormed) (h : Reached analysis g s) {n : Node}
    {rest : List Node} (hq : s.queue = n :: rest) :
    climbed g s ≤ climbed g (next analysis g s n rest) :=
  Finset.sum_le_sum fun m _ => Finset.sum_le_sum fun x _ =>
    Value.height_mono (input_le_next hg h hq m x)

/-- A visit that climbs nowhere changes nothing that arrives. -/
theorem input_next_eq_of_climbed_eq (hg : g.WellFormed) (h : Reached analysis g s) {n : Node}
    {rest : List Node} (hq : s.queue = n :: rest)
    (heq : climbed g s = climbed g (next analysis g s n rest)) (m : Node) :
    (next analysis g s n rest).input analysis m = s.input analysis m := by
  have hs := h.consistent hg
  have hn : n ∈ g.nodes.toFinset.erase .entry :=
    Finset.mem_erase.mpr ⟨hs.head_ne_entry hq, List.mem_toFinset.mpr (hs.head_mem hq)⟩
  have hle := input_le_next hg h hq
  have hmono : ∀ m x, ((s.input analysis m).get x).height ≤
      (((next analysis g s n rest).input analysis m).get x).height :=
    fun m x => Value.height_mono (hle m x)
  -- equal sums of terms in order are equal term by term
  have hnode := (Finset.sum_eq_sum_iff_of_le fun m _ =>
    Finset.sum_le_sum fun x (_ : x ∈ g.variables) => hmono m x).mp heq n hn
  have hvar := (Finset.sum_eq_sum_iff_of_le fun x _ => hmono n x).mp hnode
  refine input_next_eq hg h hq (funext fun x => ?_) m
  by_cases hx : x ∈ g.variables
  · exact (Value.eq_of_height_eq (hle n x) (hvar x hx)).symm
  · rw [(get_of_not_mem_variables hg h hx n).1, (get_of_not_mem_variables hg (h.next hg hq) hx n).1]

/-! ## From some visit on nothing changes -/

theorem eventually_constant {f : Nat → Nat} (hf : Monotone f) {b : Nat} (hb : ∀ k, f k ≤ b) :
    ∃ K, ∀ k, K ≤ k → f k = f K := by
  let F : ℕ →o Fin (b + 1) :=
    ⟨fun k => ⟨f k, Nat.lt_succ_of_le (hb k)⟩, fun _ _ hij => hf hij⟩
  rcases WellFoundedGT.monotone_chain_condition F with ⟨K, hK⟩
  exact ⟨K, fun k hk => (Fin.ext_iff.mp (hK k hk)).symm⟩

theorem monotone_climbed (hg : g.WellFormed) :
    Monotone fun k => climbed g (after analysis g k) := by
  refine monotone_nat_of_le_succ fun k => ?_
  rcases after_succ_cases (a := analysis) hg k with ⟨_, hk⟩ | ⟨n, rest, hq, hk⟩
  · rw [hk]
  · rw [hk]
    exact climbed_le_next hg (reached_after hg k) hq

/-- The nodes that have been visited. -/
def visitedNodes (s : State Fact) : Finset Node :=
  (s.history.map Visit.node).toFinset

theorem mem_visitedNodes {n : Node} : n ∈ visitedNodes s ↔ s.Visited n := by
  rw [visitedNodes, List.mem_toFinset, List.mem_map]
  rfl

theorem monotone_visitedNodes (hg : g.WellFormed) :
    Monotone fun k => visitedNodes (after analysis g k) := by
  refine monotone_nat_of_le_succ fun k n hn => ?_
  rcases after_succ_cases (a := analysis) hg k with ⟨_, hk⟩ | ⟨m, rest, _, hk⟩
  · rwa [hk]
  · rw [hk, mem_visitedNodes, visited_next]
    exact Or.inr (mem_visitedNodes.mp hn)

/-- From visit `K` on, nothing arrives that has not arrived before, and every visited node has been
visited before. -/
structure StableFrom (g : FlowGraph) (K : Nat) : Prop where
  input_eq : ∀ k, K ≤ k → ∀ n,
    (after analysis g k).input analysis n = (after analysis g K).input analysis n
  visited : ∀ k, K ≤ k → ∀ n, (after analysis g k).Visited n → (after analysis g K).Visited n

theorem exists_stableFrom (hg : g.WellFormed) : ∃ K, StableFrom g K := by
  rcases eventually_constant (monotone_climbed hg) (fun k => climbed_le g _) with ⟨K₁, h₁⟩
  have hcard : ∀ k, (visitedNodes (after analysis g k)).card ≤ g.nodes.toFinset.card := by
    refine fun k => Finset.card_le_card fun n hn => List.mem_toFinset.mpr ?_
    exact ((reached_after hg k).visited_mem hg (mem_visitedNodes.mp hn)).1
  rcases eventually_constant (Finset.card_mono.comp (monotone_visitedNodes hg)) hcard with
    ⟨K₂, h₂⟩
  refine ⟨max K₁ K₂, ?_, ?_⟩
  · -- by induction on the visits past `K₁`, none of which climbs
    intro k hk
    induction k, hk using Nat.le_induction with
    | base => exact fun n => rfl
    | succ k hk ih =>
      have hK₁ : K₁ ≤ k := (le_max_left _ _).trans hk
      have heq := (h₁ k hK₁).trans (h₁ (k + 1) (hK₁.trans (Nat.le_succ k))).symm
      intro m
      rw [← ih m]
      rcases after_succ_cases (a := analysis) hg k with ⟨_, hnext⟩ | ⟨n, rest, hq, hnext⟩
      · rw [hnext]
      · simp only [hnext] at heq
        rw [hnext]
        exact input_next_eq_of_climbed_eq hg (reached_after hg k) hq heq m
  · -- past `K₂` the visited nodes only grow in number, and the number is the same
    intro k hk n hv
    have hK₂ : K₂ ≤ max K₁ K₂ := le_max_right _ _
    have hsub := monotone_visitedNodes hg hk
    have hsame := Finset.eq_of_subset_of_card_le hsub
      (le_of_eq ((h₂ k (hK₂.trans hk)).trans (h₂ _ hK₂).symm))
    rw [← mem_visitedNodes] at hv ⊢
    simpa only [hsame] using hv

variable {K k : Nat} {n : Node} {rest : List Node}

/-- Once stable, a node that is visited has let out the effect of its statement before. -/
theorem StableFrom.effect_of_queue (hK : StableFrom g K) (hg : g.WellFormed) (hk : K ≤ k)
    (hq : (after analysis g k).queue = n :: rest) :
    ((after analysis g k).output analysis n).get =
      (effect n.code ((after analysis g K).input analysis n)).get := by
  have hv : (after analysis g (k + 1)).Visited n := by
    rw [after_succ hg hq, visited_next]
    exact Or.inl rfl
  have hbefore : (after analysis g k).Visited n := by
    have hold := hK.visited (k + 1) (hk.trans (Nat.le_succ k)) n hv
    exact mem_visitedNodes.mp (monotone_visitedNodes hg hk (mem_visitedNodes.mpr hold))
  rw [(invariant_of_reached hg (reached_after hg k)).effect_of_visited n hbefore,
    hK.input_eq k hk n]

theorem StableFrom.arrival_eq (hK : StableFrom g K) (hg : g.WellFormed) (hk : K ≤ k)
    (hq : (after analysis g k).queue = n :: rest) :
    arrival analysis g (after analysis g k) n = (after analysis g K).input analysis n := by
  have hs := (reached_after (a := analysis) hg k).consistent hg
  rw [← hK.input_eq (k + 1) (hk.trans (Nat.le_succ k)) n, after_succ hg hq,
    input_next analysis hs (hs.head_mem hq), if_pos rfl]

/-- Once stable, a visit reports a change exactly if the statement is restless. -/
theorem StableFrom.changed_iff (hK : StableFrom g K) (hg : g.WellFormed) (hk : K ≤ k)
    (hq : (after analysis g k).queue = n :: rest) :
    (record analysis g (after analysis g k) n).changed = true ↔
      Restless n.code ((after analysis g K).input analysis n) := by
  have hlawful := (invariant_of_reached hg (reached_after hg K)).lawful_input n
  show (transfer n.code (arrival analysis g (after analysis g k) n) _).2 = true ↔ _
  rw [hK.arrival_eq hg hk hq]
  exact transfer_changed_iff_restless hlawful (hK.effect_of_queue hg hk hq)

/-- Once stable, what leaves the nodes stays the same too. -/
theorem StableFrom.output_eq (hK : StableFrom g K) (hg : g.WellFormed) (hk : K ≤ k) (m : Node) :
    ((after analysis g k).output analysis m).get =
      ((after analysis g K).output analysis m).get := by
  induction k, hk using Nat.le_induction with
  | base => rfl
  | succ k hk ih =>
    rw [← ih]
    rcases after_succ_cases (a := analysis) hg k with ⟨_, hnext⟩ | ⟨n, rest, hq, hnext⟩
    · rw [hnext]
    · have hs := (reached_after (a := analysis) hg k).consistent hg
      by_cases hm : m = n
      · -- both before and after the visit the effect of the same arrival leaves `n`
        have hv : (after analysis g (k + 1)).Visited n := by
          rw [hnext, visited_next]
          exact Or.inl rfl
        rw [hm, (invariant_of_reached hg (reached_after hg (k + 1))).effect_of_visited n hv,
          hK.input_eq (k + 1) (hk.trans (Nat.le_succ k)), hK.effect_of_queue hg hk hq]
      · rw [hnext, output_next analysis hs (hs.head_mem hq), if_neg hm]

end Propagation

end ConstantFlow

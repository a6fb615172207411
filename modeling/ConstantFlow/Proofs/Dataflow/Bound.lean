import ConstantFlow.Proofs.Dataflow.Notification

/-!
# What the bound on visits does

A bound on visits cuts a run short and does nothing else. There is one sequence of visits for an
analysis and a graph; a run makes them until the queue is empty or its bound is met. So a bound that
leaves room for the whole sequence changes nothing, and a smaller one gives the first visits of the
same sequence, with an error that counts the nodes that still wait.

Main results:

* `visits_prefix`: the visits of a run are the first ones of any run with a greater bound
* `solve_eq_of_settled`: a bound that leaves room for all visits changes nothing
* `Consistent.length_queue`: the queue is as long as there are nodes that wait
* `bound_only_cuts_runs_short`: what runs with any two bounds have to do with each other
-/

namespace ConstantFlow.Worklist

variable {F : Type} {a : Analysis F} {g : FlowGraph}

/-! ## Longer and shorter runs -/

theorem visits_prefix_succ (hg : g.WellFormed) (k : Nat) :
    (solve a g k).visits <+: (solve a g (k + 1)).visits := by
  rw [visits_solve, visits_solve]
  rcases after_succ_cases (a := a) hg k with ⟨_, hk⟩ | ⟨n, rest, _, hk⟩
  · simp only [hk, List.prefix_refl]
  · rw [hk]
    show _ <+: (record a g (after a g k) n :: (after a g k).history).reverse
    rw [List.reverse_cons]
    exact List.prefix_append _ _

/-- The visits within a smaller bound come first among those within a larger one. -/
theorem visits_prefix (hg : g.WellFormed) {j k : Nat} (hjk : j ≤ k) :
    (solve a g j).visits <+: (solve a g k).visits := by
  induction k, hjk using Nat.le_induction with
  | base => exact List.prefix_refl _
  | succ k _ ih => exact ih.trans (visits_prefix_succ hg k)

/-- A bound of as many visits as are made leads to the same state. -/
theorem after_length_history (hg : g.WellFormed) (k : Nat) :
    after a g (after a g k).history.length = after a g k := by
  induction k with
  | zero => rfl
  | succ k ih =>
    rcases after_succ_cases (a := a) hg k with ⟨_, hk⟩ | ⟨n, rest, hq, hk⟩
    · rw [hk]
      exact ih
    · -- a node waited, so all the visits before were made as well
      have hbefore : (after a g k).history.length = k :=
        (length_history_after hg k).2 (by rw [hq]; nofun)
      have hlength : (after a g (k + 1)).history.length = k + 1 := by
        rw [hk]
        show (after a g k).history.length + 1 = k + 1
        rw [hbefore]
      rw [hlength]

theorem after_eq_of_settled (hg : g.WellFormed) {k m : Nat} (hq : (after a g k).queue = [])
    (hm : (after a g k).history.length ≤ m) : after a g m = after a g k := by
  have hk := after_length_history (a := a) hg k
  rw [← hk] at hq
  rw [after_of_settled hg hq hm, hk]

/-- A run that has come to its end is the run within every bound that leaves room for its visits. -/
theorem solve_eq_of_settled (hg : g.WellFormed) {k m : Nat} (hq : (after a g k).queue = [])
    (hm : (solve a g k).visits.length ≤ m) : solve a g m = solve a g k := by
  rw [visits_solve, List.length_reverse] at hm
  have hsame := after_eq_of_settled hg hq hm
  have hvisits : (solve a g m).visits = (solve a g k).visits := by
    rw [visits_solve, visits_solve, hsame]
  have houtcome : (solve a g m).outcome = (solve a g k).outcome := by
    rw [outcome_solve hg, outcome_solve hg, hsame, if_pos hq, if_pos hq]
  exact congrArg₂ Run.mk hvisits houtcome

/-- As long as a longer run has visits to make, some node waits. -/
theorem queue_ne_nil_of_lt (hg : g.WellFormed) {k m : Nat} (hm : m < (solve a g k).visits.length) :
    (after a g m).queue ≠ [] := by
  intro hq
  rw [visits_solve, List.length_reverse] at hm
  have hmade : (after a g m).history.length ≤ m := (length_history_after hg m).1
  have hk : m ≤ k := by
    have hbound := (length_history_after (a := a) hg k).1
    omega
  rw [after_of_settled hg hq hk] at hm
  omega

/-! ## Nodes that wait -/

/-- The nodes that wait: those in the queue, each of them once, without the entry. -/
def waiting (g : FlowGraph) (s : State F) : List Node :=
  g.nodes.filter fun n => n ≠ .entry ∧ n ∈ s.queue

theorem mem_waiting {s : State F} {n : Node} :
    n ∈ waiting g s ↔ n ∈ g.nodes ∧ n ≠ .entry ∧ n ∈ s.queue := by
  rw [waiting, List.mem_filter, decide_eq_true_iff]

theorem nodup_waiting (hg : g.WellFormed) (s : State F) : (waiting g s).Nodup :=
  hg.nodup_nodes.filter _

theorem Consistent.length_queue (hg : g.WellFormed) {s : State F} (hs : Consistent g s) :
    s.queue.length = (waiting g s).length := by
  have hperm : s.queue.Perm (waiting g s) := by
    rw [List.perm_ext_iff_of_nodup hs.nodup_queue (nodup_waiting hg s)]
    intro n
    rw [mem_waiting]
    constructor
    · intro hn
      exact ⟨hs.mem_nodes hn, hs.ne_entry hn, hn⟩
    · intro hn
      exact hn.2.2
  exact hperm.length_eq

theorem length_waiting_le (hg : g.WellFormed) (s : State F) :
    (waiting g s).length ≤ g.size - 1 := by
  have hsub : waiting g s ⊆ g.nodes.erase .entry := by
    intro n hn
    obtain ⟨hnode, hne, _⟩ := mem_waiting.mp hn
    exact (List.mem_erase_of_ne hne).mpr hnode
  have hle := ((nodup_waiting hg s).subperm hsub).length_le
  rwa [List.length_erase_of_mem hg.entry_mem] at hle

/-- The run stopped at its bound: it made as many visits as it was allowed to and failed with the
number of nodes that wait in the state that these visits lead to, of which there are some. -/
structure CutShort (a : Analysis F) (g : FlowGraph) (bound : Int) (run : Run F) : Prop where
  length_visits : (run.visits.length : Int) = bound
  fails : ∃ s, Reached a g s ∧ s.history = run.visits.reverse ∧
    run.outcome = .error (.notConverged bound.toNat (waiting g s).length) ∧
    1 ≤ (waiting g s).length ∧ (waiting g s).length ≤ g.size - 1

theorem cutShort_of_waiting (hg : g.WellFormed) {bound : Int} (hbound : 0 < bound)
    (hq : (after a g bound.toNat).queue ≠ []) : CutShort a g bound (solve a g bound.toNat) := by
  have hr := reached_after (a := a) hg bound.toNat
  have hlength := (hr.consistent hg).length_queue hg
  have hsome : 0 < (after a g bound.toNat).queue.length := List.length_pos_iff.mpr hq
  constructor
  case length_visits =>
    rw [visits_solve, List.length_reverse, (length_history_after hg bound.toNat).2 hq]
    omega
  case fails =>
    refine ⟨after a g bound.toNat, hr, ?_, ?_, ?_, length_waiting_le hg _⟩
    · rw [visits_solve, List.reverse_reverse]
    · rw [outcome_solve hg, if_neg hq, hlength]
    · omega

/-! ## Bounds -/

/-- Every run returns or is cut short. A run that returns is the same within every positive bound
that leaves room for its visits, and within every smaller one it is cut short after the first of
them. Whatever becomes of two runs, the visits of the one with the smaller bound come first among
those of the other. -/
theorem bound_only_cuts_runs_short (a : Analysis F) {g : FlowGraph} (hg : g.Built) :
    (∀ (bound : Int) (run : Run F), solveWithin a g bound = .ok run →
      (∃ table, run.outcome = .ok table) ∨ CutShort a g bound run) ∧
    (∀ (bound : Int) (run : Run F) (table : FactTable F), solveWithin a g bound = .ok run →
      run.outcome = .ok table →
        (∀ m : Int, max (run.visits.length : Int) 1 ≤ m → solveWithin a g m = .ok run) ∧
        ∀ m : Int, 0 < m → m < run.visits.length →
          ∃ cut, solveWithin a g m = .ok cut ∧ CutShort a g m cut ∧ cut.visits <+: run.visits) ∧
    ∀ (m m' : Int) (run run' : Run F), m ≤ m' → solveWithin a g m = .ok run →
      solveWithin a g m' = .ok run' → run.visits <+: run'.visits := by
  have hwf := hg.wellFormed
  refine ⟨?_, ?_, ?_⟩
  · intro bound run h
    obtain ⟨hbound, rfl⟩ := solveWithin_eq_ok_iff.mp h
    by_cases hq : (after a g bound.toNat).queue = []
    · exact Or.inl ⟨_, (outcome_solve_eq_ok_iff hwf).mpr ⟨hq, rfl⟩⟩
    · exact Or.inr (cutShort_of_waiting hwf hbound hq)
  · intro bound run table h hreturns
    obtain ⟨_, rfl⟩ := solveWithin_eq_ok_iff.mp h
    have hq := ((outcome_solve_eq_ok_iff hwf).mp hreturns).1
    constructor
    · intro m hm
      have hroom : (solve a g bound.toNat).visits.length ≤ m.toNat := by omega
      have hpositive : 0 < m := by omega
      rw [solveWithin_eq_ok_iff]
      exact ⟨hpositive, (solve_eq_of_settled hwf hq hroom).symm⟩
    · intro m hm hlt
      have hshort : m.toNat < (solve a g bound.toNat).visits.length := by omega
      have hwaits := queue_ne_nil_of_lt hwf hshort
      have hle : m.toNat ≤ bound.toNat := by
        have hmade := (length_history_after (a := a) hwf bound.toNat).1
        rw [visits_solve, List.length_reverse] at hshort
        omega
      exact ⟨_, solveWithin_eq_ok_iff.mpr ⟨hm, rfl⟩, cutShort_of_waiting hwf hm hwaits,
        visits_prefix hwf hle⟩
  · intro m m' run run' hm h h'
    obtain ⟨_, rfl⟩ := solveWithin_eq_ok_iff.mp h
    obtain ⟨_, rfl⟩ := solveWithin_eq_ok_iff.mp h'
    exact visits_prefix hwf (Int.toNat_le_toNat hm)

open Counted in
/-- The run of five visits is the same within a bound of five; four leave the exit waiting. -/
theorem bound_only_cuts_runs_short_counted :
    ∃ run, solveWithin visits graph 10 = .ok run ∧ run.visits.length = 5 ∧
      solveWithin visits graph 5 = .ok run ∧
      ∃ cut, solveWithin visits graph 4 = .ok cut ∧ CutShort visits graph 4 cut ∧
        cut.visits <+: run.visits ∧ cut.outcome = .error (.notConverged 4 1) := by
  obtain ⟨run, table, hrun, hreturns, hvisits⟩ := returns
  have hlength : run.visits.length = 5 := by
    simpa using congrArg List.length hvisits
  have hall := (bound_only_cuts_runs_short visits built).2.1 10 run table hrun hreturns
  obtain ⟨cut, hcut, hshort, hprefix⟩ := hall.2 4 (by decide) (by rw [hlength]; decide)
  refine ⟨run, hrun, hlength, hall.1 5 (by rw [hlength]; decide), cut, hcut, hshort, hprefix, ?_⟩
  obtain ⟨_, rfl⟩ := solveWithin_eq_ok_iff.mp hcut
  rfl

end ConstantFlow.Worklist

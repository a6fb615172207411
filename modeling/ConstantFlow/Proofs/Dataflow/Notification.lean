import ConstantFlow.Proofs.Dataflow.History

/-!
# Why nodes are visited

For any analysis, whatever it does to its facts and whenever it reports a change: a node is visited
again after every visit of a predecessor that reported a change, and it is not visited again without
one. An analysis may count the visits of a node in what leaves it, so the changes that it reports
can be any at all.

The solver asks its set of queued nodes, never the queue, whether a successor waits already. So all
of this rests on the two being in step between any two visits.

Main results:

* `inStep_after`: the queue has no repeats, and the set has its members, after any number of visits
* `Reached.cause_of_second_visit`: a second visit of a node has a cause
* `visits_follow_reported_changes`: both together, for the runs that return
-/

namespace ConstantFlow.Worklist

variable {F : Type} {a : Analysis F} {g : FlowGraph} {s : State F}

/-! ## Causes -/

/-- A node that waits although it has been visited was put into the queue by a visit of a
predecessor, no earlier than its own. -/
theorem Reached.cause_of_waiting (hg : g.WellFormed) (h : Reached a g s)
    {later earlier : List (Visit F)} {v : Visit F} (hs : s.history = later ++ v :: earlier)
    (hw : v.node ∈ s.queue) : ∃ u ∈ later ++ [v], u.changed = true ∧ v.node ∈ g.succs u.node := by
  have hinv := h.invariant hg (P := fun s => ∀ later earlier v,
    s.history = later ++ v :: earlier → v.node ∈ s.queue →
      ∃ u ∈ later ++ [v], u.changed = true ∧ v.node ∈ g.succs u.node) ?_ ?_
  · exact hinv.2 later earlier v hs hw
  · intro later earlier v hs
    exact absurd hs (by simp [Worklist.start])
  · intro s n rest _ hs hq ih later earlier v hsplit hw
    -- the new visit stands among those from `v` on, whether or not it is `v` itself
    have hnew : record a g s n ∈ later ++ [v] := by
      rcases split_history hsplit with ⟨_, rfl⟩ | ⟨later', rfl, _⟩
      · simp
      · simp
    rcases mem_queue_next.mp hw with hrest | hqueued
    · -- it waited before: the visit was of another node, which stands in front
      have hne : v.node ≠ n := by
        intro hv
        have hnodup := hq ▸ hs.nodup_queue
        exact (List.nodup_cons.mp hnodup).1 (hv ▸ hrest)
      have hwaited : v.node ∈ s.queue := hq ▸ List.mem_cons_of_mem _ hrest
      rcases split_history hsplit with ⟨_, rfl⟩ | ⟨later', rfl, ht⟩
      · exact absurd rfl hne
      · obtain ⟨u, hu, hcause⟩ := ih later' earlier v ht hwaited
        exact ⟨u, List.mem_cons_of_mem _ hu, hcause⟩
    · have hcause := mem_queued hqueued
      exact ⟨_, hnew, hcause.1, hcause.2.1⟩

/-- Of two visits of a node, the later one has a cause: a visit of a predecessor that reported a
change, no earlier than the first of the two and before the second. -/
theorem Reached.cause_of_second_visit (hg : g.WellFormed) (h : Reached a g s)
    {later between earlier : List (Visit F)} {v w : Visit F}
    (hs : s.history = later ++ w :: (between ++ v :: earlier)) (hsame : w.node = v.node) :
    ∃ u ∈ between ++ [v], u.changed = true ∧ v.node ∈ g.succs u.node := by
  have hinv := h.invariant hg (P := fun s => ∀ later,
    s.history = later ++ w :: (between ++ v :: earlier) →
      ∃ u ∈ between ++ [v], u.changed = true ∧ v.node ∈ g.succs u.node) ?_ ?_
  · exact hinv.2 later hs
  · intro later hs
    exact absurd hs (by simp [Worklist.start])
  · intro s n rest hr _ hq ih later hsplit
    cases later with
    | nil =>
      -- the second visit is the new one, so its node waited until now
      obtain ⟨hw, ht⟩ := List.cons.inj hsplit
      have hwaits : v.node ∈ s.queue := by
        rw [← hsame, ← hw, hq]
        exact List.mem_cons_self
      exact hr.cause_of_waiting hg ht hwaits
    | cons u later =>
      obtain ⟨_, ht⟩ := List.cons.inj hsplit
      exact ih later ht

/-! ## The set beside the queue -/

/-- The queue holds no node twice, and the set of queued nodes has exactly its members. -/
structure State.InStep (s : State F) : Prop where
  nodup_queue : s.queue.Nodup
  mem_queued_iff : ∀ n, n ∈ s.queued ↔ n ∈ s.queue

theorem inStep_after (hg : g.WellFormed) (k : Nat) : (after a g k).InStep := by
  have hs := (reached_after (a := a) hg k).consistent hg
  exact ⟨hs.nodup_queue, fun _ => hs.mem_queued_iff⟩

/-! ## Finished runs -/

/-- The visits follow the changes that are reported: none is lost, and none is made up. -/
structure FollowsChanges (a : Analysis F) (g : FlowGraph) (visits : List (Visit F)) : Prop where
  /-- Each visit applies the transfer to what has arrived and what left before. -/
  transfers : ∀ v ∈ visits, a.transfer v.node v.input v.before = (v.output, v.changed)
  never_entry : ∀ v ∈ visits, v.node ≠ .entry
  all_visited : ∀ n ∈ g.nodes, n ≠ .entry → ∃ v ∈ visits, v.node = n
  /-- After a visit that reported a change every successor but the entry is visited again, a node
  that follows itself included. -/
  none_lost : ∀ earlier v later, visits = earlier ++ v :: later → v.changed = true →
    ∀ n ∈ g.succs v.node, n ≠ .entry → ∃ w ∈ later, w.node = n
  /-- Between two visits of a node there is a visit of a predecessor that reported a change, no
  earlier than the first of them. -/
  none_needless : ∀ earlier v between w later, visits = earlier ++ v :: between ++ w :: later →
    w.node = v.node → ∃ u ∈ v :: between, u.changed = true ∧ u.node ∈ g.preds v.node

/-- Along every run the set of queued nodes is in step with the queue, and the visits of a run that
returns follow the changes that the analysis reports. -/
theorem visits_follow_reported_changes (a : Analysis F) {g : FlowGraph} (hg : g.Built) {bound : Int}
    {run : Run F} {table : FactTable F} (h : solveWithin a g bound = .ok run)
    (hreturns : run.outcome = .ok table) :
    (∀ k, (after a g k).InStep) ∧ FollowsChanges a g run.visits := by
  have hwf := hg.wellFormed
  obtain ⟨_, rfl⟩ := solveWithin_eq_ok_iff.mp h
  have hr := reached_after (a := a) hwf bound.toNat
  have hq := ((outcome_solve_eq_ok_iff hwf).mp hreturns).1
  have hnone : ∀ n, n ∉ (after a g bound.toNat).queue := by simp [hq]
  -- the record of a state has the last visit first
  have hrecord : (after a g bound.toNat).history = (solve a g bound.toNat).visits.reverse := by
    rw [visits_solve, List.reverse_reverse]
  have hmem : ∀ v, v ∈ (after a g bound.toNat).history ↔ v ∈ (solve a g bound.toNat).visits := by
    intro v
    rw [hrecord, List.mem_reverse]
  refine ⟨inStep_after hwf, ?_⟩
  constructor
  case transfers =>
    intro v hv
    exact hr.transfer_eq hwf ((hmem v).mpr hv)
  case never_entry =>
    intro v hv
    exact (hr.visited_mem hwf ⟨v, (hmem v).mpr hv, rfl⟩).2
  case all_visited =>
    intro n hn he
    obtain ⟨v, hv, hvn⟩ := (hr.queued_or_visited hwf hn he).resolve_left (hnone n)
    exact ⟨v, (hmem v).mp hv, hvn⟩
  case none_lost =>
    intro earlier v later hsplit hc n hn he
    have hsplit : (after a g bound.toNat).history = later.reverse ++ v :: earlier.reverse := by
      rw [hrecord, hsplit]
      simp
    obtain ⟨w, hw, hwn⟩ := (hr.notified hwf hsplit hc hn he).resolve_left (hnone n)
    exact ⟨w, List.mem_reverse.mp hw, hwn⟩
  case none_needless =>
    intro earlier v between w later hsplit hsame
    have hsplit : (after a g bound.toNat).history =
        later.reverse ++ w :: (between.reverse ++ v :: earlier.reverse) := by
      rw [hrecord, hsplit]
      simp
    obtain ⟨u, hu, hc, hsucc⟩ := hr.cause_of_second_visit hwf hsplit hsame
    have hedge := FlowGraph.mem_succs_iff.mp hsucc
    refine ⟨u, ?_, hc, FlowGraph.mem_preds_iff.mpr hedge⟩
    simpa [or_comm] using hu

/-! A node that follows itself, under an analysis that counts its visits and reports a change at the
first two of them. -/

namespace Counted

def loop : Node := .stmt 0 0 .nop

def graph : FlowGraph :=
  [(.entry, loop), (loop, loop), (loop, .exit)].foldl (fun g e => g.addEdge e.1 e.2)
    (.empty "loop" [])

def visits : Analysis Nat where
  boundary _ := 0
  initial := 0
  join target _ := target
  transfer _ _ before := (before + 1, decide (before < 2))

theorem built : graph.Built :=
  (FlowGraph.Built.empty "loop" []).foldl_addEdge _

theorem returns : ∃ run table, solveWithin visits graph 10 = .ok run ∧ run.outcome = .ok table ∧
    run.visits.map (fun v => (v.node, v.changed)) =
      [(loop, true), (.exit, true), (loop, true), (loop, false), (.exit, true)] :=
  ⟨solve visits graph 10, _, rfl, rfl, by decide⟩

end Counted

open Counted in
theorem visits_follow_reported_changes_counted :
    ∃ run, solveWithin visits graph 10 = .ok run ∧
      run.visits.map (fun v => (v.node, v.changed)) =
        [(loop, true), (.exit, true), (loop, true), (loop, false), (.exit, true)] ∧
      (∀ k, (after visits graph k).InStep) ∧ FollowsChanges visits graph run.visits := by
  obtain ⟨run, table, hrun, hreturns, hvisits⟩ := returns
  exact ⟨run, hrun, hvisits, visits_follow_reported_changes visits built hrun hreturns⟩

end ConstantFlow.Worklist

import ConstantFlow.Proofs.Dataflow.Run

/-!
# The history of a run

The states of the solver in the order of its visits, and what the record of the visits says about
them, for any analysis on a well-formed graph. Every node but the entry waits or has been visited;
the last visit of a node left it the facts that it has; and a visit that reported a change is
followed by visits of all successors, unless they still wait.

Main results:

* `outcome_solve`: a run returns its facts if nothing waits after as many visits as its bound
  allows
* `Reached.queued_or_visited`: every node but the entry waits or has been visited
* `Reached.facts_of_last`: the last visit of a node left it the facts that it has
* `Reached.notified`: a change that was reported has reached all successors, or they wait
-/

namespace ConstantFlow.Worklist

variable {F : Type} {a : Analysis F} {g : FlowGraph}

/-! ## States in order -/

/-- The state after `k` visits, or the last one if the queue runs empty before. -/
def after (a : Analysis F) (g : FlowGraph) (k : Nat) : State F :=
  (drain a g k (start a g)).1

theorem drain_of_settled {s : State F} (h : s.queue = []) (k : Nat) :
    drain a g k s = (s, .settled) := by
  cases k with
  | zero => simp [drain, h]
  | succ k => simp [drain, h]

theorem drain_of_cons (hg : g.WellFormed) {s : State F} (h : Reached a g s) {n : Node}
    {rest : List Node} (hq : s.queue = n :: rest) (k : Nat) :
    drain a g (k + 1) s = drain a g k (next a g s n rest) := by
  have hs := h.consistent hg
  have hv := visit_eq_next a hg hs (hs.head_mem hq) rest
  simp only [drain, hq, hv]

/-- A drain neither fails nor stops early: it ends where the queue is empty or no visit is
left. -/
theorem reached_drain (hg : g.WellFormed) {s : State F} (h : Reached a g s) (k : Nat) :
    Reached a g (drain a g k s).1 ∧
      (drain a g k s).2 = if (drain a g k s).1.queue = [] then .settled else .exhausted := by
  -- by induction on the visits that are left, from whatever state is reached
  induction k generalizing s with
  | zero => exact ⟨h, by simp [drain]⟩
  | succ k ih =>
    cases hq : s.queue with
    | nil =>
      rw [drain_of_settled hq]
      exact ⟨h, (if_pos hq).symm⟩
    | cons n rest =>
      rw [drain_of_cons hg h hq]
      exact ih (h.next hg hq)

/-- Visits can be made in two goes. -/
theorem drain_add (hg : g.WellFormed) {s : State F} (h : Reached a g s) (j k : Nat) :
    (drain a g (j + k) s).1 = (drain a g k (drain a g j s).1).1 := by
  induction j generalizing s with
  | zero => rw [Nat.zero_add, drain]
  | succ j ih =>
    cases hq : s.queue with
    | nil => rw [drain_of_settled hq, drain_of_settled hq, drain_of_settled hq]
    | cons n rest =>
      rw [Nat.add_right_comm, drain_of_cons hg h hq, drain_of_cons hg h hq]
      exact ih (h.next hg hq)

theorem reached_after (hg : g.WellFormed) (k : Nat) : Reached a g (after a g k) :=
  (reached_drain hg .start k).1

theorem after_succ_of_settled (hg : g.WellFormed) {k : Nat} (hq : (after a g k).queue = []) :
    after a g (k + 1) = after a g k := by
  have hone : (drain a g 1 (after a g k)).1 = after a g k := by rw [drain_of_settled hq]
  exact (drain_add hg .start k 1).trans hone

theorem after_succ (hg : g.WellFormed) {k : Nat} {n : Node} {rest : List Node}
    (hq : (after a g k).queue = n :: rest) :
    after a g (k + 1) = next a g (after a g k) n rest := by
  have hone := drain_of_cons hg (reached_after hg k) hq 0
  exact (drain_add hg .start k 1).trans (congrArg Prod.fst hone)

/-- What another visit does: nothing if the queue is empty, or else the first node is visited. -/
theorem after_succ_cases (hg : g.WellFormed) (k : Nat) :
    (after a g k).queue = [] ∧ after a g (k + 1) = after a g k ∨
      ∃ n rest, (after a g k).queue = n :: rest ∧
        after a g (k + 1) = next a g (after a g k) n rest := by
  cases hq : (after a g k).queue with
  | nil => exact Or.inl ⟨rfl, after_succ_of_settled hg hq⟩
  | cons n rest => exact Or.inr ⟨n, rest, rfl, after_succ hg hq⟩

/-- A run that has come to its end stays there. -/
theorem after_of_settled (hg : g.WellFormed) {k : Nat} (hq : (after a g k).queue = [])
    {j : Nat} (hj : k ≤ j) : after a g j = after a g k := by
  induction j, hj using Nat.le_induction with
  | base => rfl
  | succ j _ ih => rw [after_succ_of_settled hg (ih ▸ hq), ih]

/-- What a bound on visits makes of a run. -/
theorem outcome_solve (hg : g.WellFormed) (bound : Nat) :
    (solve a g bound).outcome =
      if (after a g bound).queue = [] then .ok (after a g bound).table
      else .error (.notConverged bound (after a g bound).queue.length) := by
  have hend := (reached_drain (a := a) hg .start bound).2
  by_cases hq : (after a g bound).queue = []
  · have hsettled : (drain a g bound (start a g)).2 = .settled := hend.trans (if_pos hq)
    rw [if_pos hq]
    simp only [solve, hsettled]
    rfl
  · have hexhausted : (drain a g bound (start a g)).2 = .exhausted := hend.trans (if_neg hq)
    rw [if_neg hq]
    simp only [solve, hexhausted]
    rfl

/-- A run returns the table of its last state, and only if the queue has run empty. -/
theorem outcome_solve_eq_ok_iff (hg : g.WellFormed) {bound : Nat} {table : FactTable F} :
    (solve a g bound).outcome = .ok table ↔
      (after a g bound).queue = [] ∧ table = (after a g bound).table := by
  rw [outcome_solve hg]
  by_cases hq : (after a g bound).queue = []
  · simp [hq, eq_comm]
  · simp [hq]

theorem solveWithin_eq_ok_iff {bound : Int} {run : Run F} :
    solveWithin a g bound = .ok run ↔ 0 < bound ∧ run = solve a g bound.toNat := by
  unfold solveWithin
  by_cases hb : bound ≤ 0
  · simp [hb]
  · simp [hb, Int.not_le.mp hb, eq_comm]

/-- The visits of a run are the history of its last state, the first one first. -/
theorem visits_solve (bound : Nat) : (solve a g bound).visits = (after a g bound).history.reverse :=
  rfl

/-- No more visits are made than asked for, and fewer only if the queue runs empty. -/
theorem length_history_after (hg : g.WellFormed) (k : Nat) :
    (after a g k).history.length ≤ k ∧
      ((after a g k).queue ≠ [] → (after a g k).history.length = k) := by
  induction k with
  | zero => exact ⟨Nat.le_refl _, fun _ => rfl⟩
  | succ k ih =>
    rcases after_succ_cases (a := a) hg k with ⟨hq, hk⟩ | ⟨n, rest, hq, hk⟩
    · rw [hk]
      exact ⟨Nat.le_succ_of_le ih.1, fun hne => absurd hq hne⟩
    · have hlen : (after a g (k + 1)).history.length = (after a g k).history.length + 1 := by
        rw [hk]
        exact List.length_cons
      have hbefore := ih.2 (by rw [hq]; nofun)
      exact ⟨by omega, fun _ => by omega⟩

/-! ## What the visits say about the state -/

/-- The node has been visited. -/
def State.Visited (s : State F) (n : Node) : Prop :=
  ∃ v ∈ s.history, v.node = n

theorem visited_next {s : State F} {n m : Node} {rest : List Node} :
    (next a g s n rest).Visited m ↔ m = n ∨ s.Visited m := by
  simp only [State.Visited, next, List.mem_cons, exists_eq_or_imp]
  exact or_congr_left eq_comm

/-- Every node but the entry waits or has been visited. -/
theorem Reached.queued_or_visited (hg : g.WellFormed) {s : State F} (h : Reached a g s) {n : Node}
    (hn : n ∈ g.nodes) (he : n ≠ .entry) : n ∈ s.queue ∨ s.Visited n := by
  have hinv := h.invariant hg (P := fun s => n ∈ s.queue ∨ s.Visited n) ?_ ?_
  · exact hinv.2
  · have hperm := FlowGraph.reversePostorder_perm hg
    exact Or.inl (List.mem_filter.mpr ⟨hperm.mem_iff.mpr hn, by simpa using he⟩)
  · intro s m rest _ _ hq ih
    rw [visited_next]
    by_cases hm : n = m
    · exact Or.inr (Or.inl hm)
    · rcases ih with hw | hv
      · exact Or.inl (mem_queue_next_of_ne hq hw hm)
      · exact Or.inr (Or.inr hv)

/-- Only nodes of the graph are visited, and never the entry. -/
theorem Reached.visited_mem (hg : g.WellFormed) {s : State F} (h : Reached a g s) {n : Node}
    (hv : s.Visited n) : n ∈ g.nodes ∧ n ≠ .entry := by
  have hinv := h.invariant hg (P := fun s => s.Visited n → n ∈ g.nodes ∧ n ≠ .entry) ?_ ?_
  · exact hinv.2 hv
  · rintro ⟨v, hm, _⟩
    cases hm
  · intro s m rest _ hs hq ih hn
    rcases visited_next.mp hn with rfl | hn
    · exact ⟨hs.head_mem hq, hs.head_ne_entry hq⟩
    · exact ih hn

/-- A node that has not been visited has the facts that it started with. -/
theorem Reached.facts_of_unvisited (hg : g.WellFormed) {s : State F} (h : Reached a g s) {n : Node}
    (hv : ¬ s.Visited n) :
    s.input a n = a.initial ∧
      s.output a n = if n = .entry then a.boundary g else a.initial := by
  have hinv := h.invariant hg (P := fun s => ¬ s.Visited n → s.input a n = a.initial ∧
    s.output a n = if n = .entry then a.boundary g else a.initial) ?_ ?_
  · exact hinv.2 hv
  · intro _
    exact ⟨input_start a g n, output_start a hg n⟩
  · intro s m rest _ hs hq ih hn
    rw [visited_next, not_or] at hn
    have hm := hs.head_mem hq
    rw [input_next a hs hm, output_next a hs hm, if_neg hn.1, if_neg hn.1]
    exact ih hn.2

/-- Each visit is an application of the transfer. -/
theorem Reached.transfer_eq (hg : g.WellFormed) {s : State F} (h : Reached a g s) {v : Visit F}
    (hv : v ∈ s.history) : a.transfer v.node v.input v.before = (v.output, v.changed) := by
  have hinv := h.invariant hg (P := fun s => ∀ v ∈ s.history,
    a.transfer v.node v.input v.before = (v.output, v.changed)) ?_ ?_
  · exact hinv.2 v hv
  · intro v hv
    cases hv
  · intro s n rest _ _ _ ih v hv
    rcases List.mem_cons.mp hv with rfl | hv
    · rfl
    · exact ih v hv

/-- A history that has grown by one visit is split at that visit or further back. -/
theorem split_history {s : State F} {n : Node} {rest : List Node} {later earlier : List (Visit F)}
    {v : Visit F} (h : (next a g s n rest).history = later ++ v :: earlier) :
    later = [] ∧ v = record a g s n ∨
      ∃ later', later = record a g s n :: later' ∧ s.history = later' ++ v :: earlier := by
  cases later with
  | nil => exact Or.inl ⟨rfl, (List.cons.inj h).1.symm⟩
  | cons w later' =>
    rcases List.cons.inj h with ⟨hw, ht⟩
    exact Or.inr ⟨later', by rw [← hw], ht⟩

/-- The last visit of a node left it the facts that it has. -/
theorem Reached.facts_of_last (hg : g.WellFormed) {s : State F} (h : Reached a g s)
    {later earlier : List (Visit F)} {v : Visit F} (hs : s.history = later ++ v :: earlier)
    (hlast : ∀ w ∈ later, w.node ≠ v.node) :
    s.input a v.node = v.input ∧ s.output a v.node = v.output := by
  have hinv := h.invariant hg (P := fun s => ∀ later earlier v,
    s.history = later ++ v :: earlier → (∀ w ∈ later, w.node ≠ v.node) →
      s.input a v.node = v.input ∧ s.output a v.node = v.output) ?_ ?_
  · exact hinv.2 later earlier v hs hlast
  · intro later earlier v hs
    exact absurd hs (by simp [Worklist.start])
  · intro s n rest _ hs hq ih later earlier v hsplit hlast
    have hn := hs.head_mem hq
    rw [input_next a hs hn, output_next a hs hn]
    rcases split_history hsplit with ⟨_, rfl⟩ | ⟨later', rfl, ht⟩
    · exact ⟨if_pos rfl, if_pos rfl⟩
    · -- the new visit is among the later ones, so it was of another node
      have hne : v.node ≠ n := Ne.symm (hlast _ List.mem_cons_self)
      rw [if_neg hne, if_neg hne]
      exact ih later' earlier v ht fun w hw => hlast w (List.mem_cons_of_mem _ hw)

/-- No notification is lost: the successors of a visit that reported a change wait or have been
visited since. -/
theorem Reached.notified (hg : g.WellFormed) {s : State F} (h : Reached a g s)
    {later earlier : List (Visit F)} {v : Visit F} (hs : s.history = later ++ v :: earlier)
    (hc : v.changed = true) {m : Node} (hm : m ∈ g.succs v.node) (he : m ≠ .entry) :
    m ∈ s.queue ∨ ∃ w ∈ later, w.node = m := by
  have hinv := h.invariant hg (P := fun s => ∀ later earlier v,
    s.history = later ++ v :: earlier → v.changed = true → m ∈ g.succs v.node →
      m ∈ s.queue ∨ ∃ w ∈ later, w.node = m) ?_ ?_
  · exact hinv.2 later earlier v hs hc hm
  · intro later earlier v hs
    exact absurd hs (by simp [Worklist.start])
  · intro s n rest _ hs hq ih later earlier v hsplit hc hm
    rcases split_history hsplit with ⟨_, rfl⟩ | ⟨later', rfl, ht⟩
    · exact Or.inl (mem_queue_next_of_changed hs hq hc hm he)
    · rcases ih later' earlier v ht hc hm with hw | ⟨w, hw, hwm⟩
      · -- `m` waited: now it is visited, or it goes on waiting
        by_cases hn : m = n
        · exact Or.inr ⟨_, List.mem_cons_self, hn.symm⟩
        · exact Or.inl (mem_queue_next_of_ne hq hw hn)
      · exact Or.inr ⟨w, List.mem_cons_of_mem _ hw, hwm⟩

end ConstantFlow.Worklist

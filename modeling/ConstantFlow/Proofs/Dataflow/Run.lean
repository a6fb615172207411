import ConstantFlow.Dataflow.Worklist
import ConstantFlow.Proofs.Fact
import ConstantFlow.Proofs.FlowGraph.Order

/-!
# Runs of the worklist solver

The solver on a well-formed graph, for any analysis. A state of the solver is read through the
total functions `State.input` and `State.output`. No look-up fails in a reached state, so a visit
takes a state to exactly one other, `next`, and the states `after` 0, 1, 2, ... visits make up the
run that a bound on visits cuts short.

Main results:

* `visit_eq_next`: no look-up fails, and a visit takes a state to `next`
* `Consistent.next`: one visit keeps the queue, the set of queued nodes and the table in step
* `Reached.invariant`: what holds at the start and is kept by every visit holds in every reached
  state
-/

namespace ConstantFlow.Worklist

variable {F : Type}

/-! ## Reading a state -/

namespace State

/-- The fact that arrives at a node; nodes without facts get the initial one. -/
def input (a : Analysis F) (s : State F) (n : Node) : F :=
  ((s.table.lookup n).map NodeFacts.input).getD a.initial

/-- The fact that leaves a node. -/
def output (a : Analysis F) (s : State F) (n : Node) : F :=
  ((s.table.lookup n).map NodeFacts.output).getD a.initial

end State

/-- What holds between any two visits: each node of the graph has its facts, the queue holds nodes
of the graph other than the entry, none of them twice, and the set of queued nodes has the same
members as the queue. -/
structure Consistent (g : FlowGraph) (s : State F) : Prop where
  nodes_eq : s.table.map Prod.fst = g.nodes
  nodup_queue : s.queue.Nodup
  mem_queued_iff : ∀ {n : Node}, n ∈ s.queued ↔ n ∈ s.queue
  mem_nodes : ∀ {n : Node}, n ∈ s.queue → n ∈ g.nodes
  ne_entry : ∀ {n : Node}, n ∈ s.queue → n ≠ .entry

theorem Consistent.head_mem {g : FlowGraph} {s : State F} (hs : Consistent g s) {n : Node}
    {rest : List Node} (hq : s.queue = n :: rest) : n ∈ g.nodes :=
  hs.mem_nodes (hq ▸ List.mem_cons_self)

theorem Consistent.head_ne_entry {g : FlowGraph} {s : State F} (hs : Consistent g s) {n : Node}
    {rest : List Node} (hq : s.queue = n :: rest) : n ≠ .entry :=
  hs.ne_entry (hq ▸ List.mem_cons_self)

theorem lookup_eq_some (a : Analysis F) {s : State F} {n : Node}
    (hn : n ∈ s.table.map Prod.fst) :
    s.table.lookup n = some { input := s.input a n, output := s.output a n } := by
  cases h : s.table.lookup n with
  | none =>
    rcases List.mem_map.mp hn with ⟨row, hrow, rfl⟩
    have hne := List.lookup_eq_none_iff.mp h row hrow
    simp at hne
  | some facts => simp [State.input, State.output, h]

theorem Consistent.factsAt_eq (a : Analysis F) {g : FlowGraph} {s : State F}
    (hs : Consistent g s) {n : Node} (hn : n ∈ g.nodes) :
    factsAt s.table n = .ok { input := s.input a n, output := s.output a n } := by
  rw [factsAt, lookup_eq_some a (hs.nodes_eq ▸ hn)]

theorem map_fst_setFacts (table : FactTable F) (n : Node) (facts : NodeFacts F) :
    (setFacts table n facts).map Prod.fst = table.map Prod.fst := by
  rw [setFacts, List.map_map]
  refine List.map_congr_left fun row _ => ?_
  simp only [Function.comp_apply]
  split <;> rfl

theorem lookup_setFacts (table : FactTable F) (n m : Node) (facts : NodeFacts F) :
    (setFacts table n facts).lookup m =
      if m = n then (table.lookup n).map fun _ => facts else table.lookup m := by
  induction table with
  | nil => simp [setFacts]
  | cons row table ih =>
    simp only [setFacts, List.map_cons] at ih ⊢
    by_cases hrow : row.1 = n
    · -- the row of `n`: no later row decides about `n`, and this one about nothing else
      rw [if_pos hrow, Entries.lookup_entry, Entries.lookup_entry, Entries.lookup_entry]
      by_cases hm : m = n
      · simp [hm, hrow]
      · rw [if_neg hm] at ih
        simp [hm, hrow, ih]
    · rw [if_neg hrow, Entries.lookup_entry, Entries.lookup_entry, Entries.lookup_entry, ih]
      by_cases hm : m = n
      · have hne : ¬ n = row.1 := fun h => hrow h.symm
        simp [hm, hne]
      · simp [hm]

/-! ## Queueing -/

theorem mem_discard {queued : List Node} {n m : Node} :
    m ∈ discard queued n ↔ m ∈ queued ∧ m ≠ n := by
  simp [discard]

/-- Once the first node of the queue is discarded, the set has the members of the queue behind it:
the node itself is nowhere else in the queue. -/
theorem Consistent.mem_discard_iff {g : FlowGraph} {s : State F} (hs : Consistent g s) {n m : Node}
    {rest : List Node} (hq : s.queue = n :: rest) : m ∈ discard s.queued n ↔ m ∈ rest := by
  have hfirst : n ∉ rest := (List.nodup_cons.mp (hq ▸ hs.nodup_queue)).1
  rw [mem_discard, hs.mem_queued_iff, hq, List.mem_cons]
  constructor
  · rintro ⟨hm, hne⟩
    exact hm.resolve_left hne
  · intro hm
    exact ⟨Or.inr hm, fun heq => hfirst (heq ▸ hm)⟩

/-- Who is put into the queue depends on the members of the set alone. -/
theorem newcomers_congr {queued queued' : List Node} (h : ∀ m, m ∈ queued ↔ m ∈ queued')
    (ns : List Node) : newcomers queued ns = newcomers queued' ns := by
  induction ns generalizing queued queued' with
  | nil => rfl
  | cons n ns ih =>
    have hgrown : ∀ m, m ∈ queued ++ [n] ↔ m ∈ queued' ++ [n] := by
      intro m
      rw [List.mem_append, List.mem_append, h]
    simp only [newcomers, h n, ih h, ih hgrown]

theorem mem_newcomers {queue ns : List Node} {m : Node} (h : m ∈ newcomers queue ns) :
    m ∈ ns ∧ m ∉ queue ∧ m ≠ .entry := by
  induction ns generalizing queue with
  | nil => cases h
  | cons n ns ih =>
    simp only [newcomers] at h
    split at h
    · rcases ih h with ⟨hm, hq, he⟩
      exact ⟨List.mem_cons_of_mem _ hm, hq, he⟩
    case isFalse hn =>
      rw [not_or] at hn
      rcases List.mem_cons.mp h with rfl | h
      · exact ⟨List.mem_cons_self, hn.1, hn.2⟩
      · rcases ih h with ⟨hm, hq, he⟩
        exact ⟨List.mem_cons_of_mem _ hm, fun h => hq (List.mem_append_left _ h), he⟩

/-- All of the nodes but the entry end up in the queue. -/
theorem mem_append_newcomers {queue ns : List Node} {m : Node} (hm : m ∈ ns)
    (he : m ≠ .entry) : m ∈ queue ++ newcomers queue ns := by
  induction ns generalizing queue with
  | nil => cases hm
  | cons n ns ih =>
    simp only [newcomers]
    split
    case isTrue hn =>
      rcases List.mem_cons.mp hm with rfl | hm
      · exact List.mem_append_left _ (hn.resolve_right he)
      · exact ih hm
    case isFalse hn =>
      rcases List.mem_cons.mp hm with rfl | hm
      · exact List.mem_append_right _ List.mem_cons_self
      · -- the rest of the list meets a queue that has grown by `n`
        rw [← List.singleton_append, ← List.append_assoc]
        exact ih hm

theorem nodup_append_newcomers {queue : List Node} (hq : queue.Nodup) (ns : List Node) :
    (queue ++ newcomers queue ns).Nodup := by
  induction ns generalizing queue with
  | nil => simpa [newcomers] using hq
  | cons n ns ih =>
    simp only [newcomers]
    split
    · exact ih hq
    case isFalse hn =>
      rw [not_or] at hn
      rw [← List.singleton_append, ← List.append_assoc]
      have hgrown : (queue ++ [n]).Nodup :=
        hq.append (List.nodup_singleton n) (by simpa using hn.1)
      exact ih hgrown

/-! ## One visit -/

/-- What arrives at a node when it is visited: all that leaves its predecessors, joined into what
arrived before. -/
def arrival (a : Analysis F) (g : FlowGraph) (s : State F) (n : Node) : F :=
  (g.preds n).foldl (fun f p => a.join f (s.output a p)) (s.input a n)

/-- The record of a visit of `n`. -/
def record (a : Analysis F) (g : FlowGraph) (s : State F) (n : Node) : Visit F :=
  let input := arrival a g s n
  let result := a.transfer n input (s.output a n)
  { node := n, input, before := s.output a n, output := result.1, changed := result.2
    queued := if result.2 then newcomers (discard s.queued n) (g.succs n) else [] }

/-- The state after a visit of `n`, where `rest` is the queue behind it. -/
def next (a : Analysis F) (g : FlowGraph) (s : State F) (n : Node) (rest : List Node) :
    State F :=
  let v := record a g s n
  { table := setFacts s.table n { input := v.input, output := v.output }
    queue := rest ++ v.queued
    queued := discard s.queued n ++ v.queued
    history := v :: s.history }

theorem gather_eq (a : Analysis F) {g : FlowGraph} {s : State F} (hs : Consistent g s)
    (ps : List Node) (hps : ∀ p ∈ ps, p ∈ g.nodes) (f : F) :
    gather a s.table f ps = .ok (ps.foldl (fun f p => a.join f (s.output a p)) f) := by
  induction ps generalizing f with
  | nil => rfl
  | cons p ps ih =>
    rw [gather, hs.factsAt_eq a (hps p List.mem_cons_self)]
    exact ih (fun q hq => hps q (List.mem_cons_of_mem _ hq)) _

/-- No look-up fails: a visit of a node of the graph leads to the next state. -/
theorem visit_eq_next (a : Analysis F) {g : FlowGraph} (hg : g.WellFormed) {s : State F}
    (hs : Consistent g s) {n : Node} (hn : n ∈ g.nodes) (rest : List Node) :
    visit a g s n rest = .ok (next a g s n rest) := by
  -- a visit looks up the facts of `n` and of its predecessors, its edges in and its edges out
  have hpreds : ∀ p ∈ g.preds n, p ∈ g.nodes := fun p hp =>
    hg.source_mem (FlowGraph.mem_preds_iff.mp hp)
  have hgather : gather a s.table (s.input a n) (g.preds n) = .ok (arrival a g s n) :=
    gather_eq a hs (g.preds n) hpreds (s.input a n)
  have hp : predsAt g n = .ok (g.preds n) := by simp [predsAt, FlowGraph.preds?, hn]
  have hsu : succsAt g n = .ok (g.succs n) := by simp [succsAt, FlowGraph.succs?, hn]
  rcases ht : a.transfer n (arrival a g s n) (s.output a n) with ⟨output, changed⟩
  simp only [visit, hs.factsAt_eq a hn, hp, hgather, hsu, bind, Except.bind, ht, next, record]
  cases changed <;> rfl

/-! ### What a visit does to the state -/

section Next

variable (a : Analysis F) {g : FlowGraph} {s : State F} (hs : Consistent g s)
variable {n : Node} (hn : n ∈ g.nodes) (rest : List Node)

include hs hn

theorem input_next (m : Node) :
    (next a g s n rest).input a m = if m = n then arrival a g s n else s.input a m := by
  have hrow := lookup_eq_some a (hs.nodes_eq ▸ hn)
  show (((setFacts s.table n _).lookup m).map NodeFacts.input).getD a.initial = _
  rw [lookup_setFacts]
  by_cases hm : m = n
  · rw [if_pos hm, if_pos hm, hrow]
    rfl
  · rw [if_neg hm, if_neg hm]
    rfl

theorem output_next (m : Node) :
    (next a g s n rest).output a m =
      if m = n then (a.transfer n (arrival a g s n) (s.output a n)).1 else s.output a m := by
  have hrow := lookup_eq_some a (hs.nodes_eq ▸ hn)
  show (((setFacts s.table n _).lookup m).map NodeFacts.output).getD a.initial = _
  rw [lookup_setFacts]
  by_cases hm : m = n
  · rw [if_pos hm, if_pos hm, hrow]
    rfl
  · rw [if_neg hm, if_neg hm]
    rfl

end Next

theorem mem_queue_next {a : Analysis F} {g : FlowGraph} {s : State F} {n m : Node}
    {rest : List Node} :
    m ∈ (next a g s n rest).queue ↔ m ∈ rest ∨ m ∈ (record a g s n).queued :=
  List.mem_append

/-- Whatever waits behind the visited node goes on waiting. -/
theorem mem_queue_next_of_ne {a : Analysis F} {g : FlowGraph} {s : State F} {n m : Node}
    {rest : List Node} (hq : s.queue = n :: rest) (hm : m ∈ s.queue) (hne : m ≠ n) :
    m ∈ (next a g s n rest).queue := by
  rw [hq] at hm
  exact mem_queue_next.mpr (Or.inl ((List.mem_cons.mp hm).resolve_left hne))

/-- In a consistent state the set decides as the queue behind the visited node would. -/
theorem Consistent.queued_record {a : Analysis F} {g : FlowGraph} {s : State F}
    (hs : Consistent g s) {n : Node} {rest : List Node} (hq : s.queue = n :: rest) :
    (record a g s n).queued =
      if (record a g s n).changed then newcomers rest (g.succs n) else [] := by
  have hsame := newcomers_congr (fun _ => hs.mem_discard_iff hq) (g.succs n)
  rw [← hsame]
  rfl

/-- A visit that reports a change has all successors queued behind it. -/
theorem mem_queue_next_of_changed {a : Analysis F} {g : FlowGraph} {s : State F}
    (hs : Consistent g s) {n m : Node} {rest : List Node} (hq : s.queue = n :: rest)
    (hc : (record a g s n).changed = true) (hm : m ∈ g.succs n) (he : m ≠ .entry) :
    m ∈ (next a g s n rest).queue := by
  show m ∈ rest ++ (record a g s n).queued
  rw [hs.queued_record hq, if_pos hc]
  exact mem_append_newcomers hm he

theorem mem_queued {a : Analysis F} {g : FlowGraph} {s : State F} {n m : Node}
    (hm : m ∈ (record a g s n).queued) :
    (record a g s n).changed = true ∧ m ∈ g.succs n ∧ m ≠ .entry := by
  by_cases hc : (record a g s n).changed = true
  · have hqueued : (record a g s n).queued = newcomers (discard s.queued n) (g.succs n) := if_pos hc
    rw [hqueued] at hm
    exact ⟨hc, (mem_newcomers hm).1, (mem_newcomers hm).2.2⟩
  · have hqueued : (record a g s n).queued = [] := if_neg hc
    rw [hqueued] at hm
    cases hm

theorem Consistent.next {a : Analysis F} {g : FlowGraph} (hg : g.WellFormed) {s : State F}
    (hs : Consistent g s) {n : Node} {rest : List Node} (hq : s.queue = n :: rest) :
    Consistent g (next a g s n rest) := by
  have hrest : ∀ {m}, m ∈ rest → m ∈ s.queue := fun hm => hq ▸ List.mem_cons_of_mem _ hm
  constructor
  case nodes_eq =>
    rw [← hs.nodes_eq]
    exact map_fst_setFacts _ _ _
  case nodup_queue =>
    have hnodup := (List.nodup_cons.mp (hq ▸ hs.nodup_queue)).2
    show (rest ++ (record a g s n).queued).Nodup
    rw [hs.queued_record hq]
    split
    · exact nodup_append_newcomers hnodup _
    · rwa [List.append_nil]
  case mem_queued_iff =>
    -- the visited node leaves both, and the same nodes are added to both
    intro m
    show m ∈ discard s.queued n ++ (record a g s n).queued ↔ m ∈ rest ++ (record a g s n).queued
    rw [List.mem_append, List.mem_append, hs.mem_discard_iff hq]
  case mem_nodes =>
    intro m hm
    rcases mem_queue_next.mp hm with hm | hm
    · exact hs.mem_nodes (hrest hm)
    · exact hg.target_mem (FlowGraph.mem_succs_iff.mp (mem_queued hm).2.1)
  case ne_entry =>
    intro m hm
    rcases mem_queue_next.mp hm with hm | hm
    · exact hs.ne_entry (hrest hm)
    · exact (mem_queued hm).2.2

/-! ## Reached states -/

theorem Consistent.start (a : Analysis F) {g : FlowGraph} (hg : g.WellFormed) :
    Consistent g (start a g) := by
  -- the first queue is the reverse postorder without the entry
  have hperm := FlowGraph.reversePostorder_perm hg
  constructor
  case nodes_eq =>
    show (g.nodes.map _).map Prod.fst = g.nodes
    rw [List.map_map]
    exact List.map_id _
  case nodup_queue => exact (hperm.nodup_iff.mpr hg.nodup_nodes).filter _
  case mem_queued_iff => exact Iff.rfl
  case mem_nodes =>
    intro n hn
    exact hperm.mem_iff.mp (List.mem_of_mem_filter hn)
  case ne_entry =>
    intro n hn
    simpa using (List.mem_filter.mp hn).2

theorem facts_start {a : Analysis F} {g : FlowGraph} {n : Node} {facts : NodeFacts F}
    (h : (start a g).table.lookup n = some facts) :
    facts =
      { input := a.initial, output := if n = .entry then a.boundary g else a.initial } := by
  rcases List.mem_map.mp (Entries.mem_of_lookup h) with ⟨m, _, hm⟩
  rw [Prod.mk.injEq] at hm
  rw [← hm.1, hm.2]

theorem input_start (a : Analysis F) (g : FlowGraph) (n : Node) :
    (start a g).input a n = a.initial := by
  rw [State.input]
  cases h : (start a g).table.lookup n with
  | none => rfl
  | some facts =>
    rw [facts_start h]
    rfl

theorem output_start (a : Analysis F) {g : FlowGraph} (hg : g.WellFormed) (n : Node) :
    (start a g).output a n = if n = .entry then a.boundary g else a.initial := by
  rw [State.output]
  cases h : (start a g).table.lookup n with
  | none =>
    have hne : n ≠ .entry := by
      rintro rfl
      have hrow := lookup_eq_some a ((Consistent.start a hg).nodes_eq ▸ hg.entry_mem)
      rw [h] at hrow
      cases hrow
    rw [if_neg hne]
    rfl
  | some facts =>
    rw [facts_start h]
    rfl

/-- The states that the solver comes through, whatever its bound is. -/
inductive Reached (a : Analysis F) (g : FlowGraph) : State F → Prop where
  | start : Reached a g (start a g)
  | visit {s t : State F} {n : Node} {rest : List Node} :
    Reached a g s → s.queue = n :: rest → visit a g s n rest = .ok t → Reached a g t

/-- What holds at the start and is kept by every visit holds of every reached state. -/
theorem Reached.invariant {a : Analysis F} {g : FlowGraph} (hg : g.WellFormed)
    {P : State F → Prop} (hstart : P (Worklist.start a g))
    (hnext : ∀ s n rest, Reached a g s → Consistent g s → s.queue = n :: rest → P s →
      P (next a g s n rest))
    {s : State F} (h : Reached a g s) : Consistent g s ∧ P s := by
  induction h with
  | start => exact ⟨Consistent.start a hg, hstart⟩
  | @visit s t n rest hr hq hv ih =>
    rcases ih with ⟨hs, hP⟩
    -- in a consistent state the visit can only have led to the next one
    rw [visit_eq_next a hg hs (hs.head_mem hq), Except.ok.injEq] at hv
    rw [← hv]
    exact ⟨hs.next hg hq, hnext s n rest hr hs hq hP⟩

theorem Reached.consistent {a : Analysis F} {g : FlowGraph} (hg : g.WellFormed) {s : State F}
    (h : Reached a g s) : Consistent g s :=
  (h.invariant hg (P := fun _ => True) trivial fun _ _ _ _ _ _ _ => trivial).1

theorem Reached.next {a : Analysis F} {g : FlowGraph} (hg : g.WellFormed) {s : State F}
    (h : Reached a g s) {n : Node} {rest : List Node} (hq : s.queue = n :: rest) :
    Reached a g (next a g s n rest) :=
  have hs := h.consistent hg
  .visit h hq (visit_eq_next a hg hs (hs.head_mem hq) rest)

end ConstantFlow.Worklist

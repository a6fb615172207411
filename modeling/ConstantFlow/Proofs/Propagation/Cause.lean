import ConstantFlow.Proofs.FlowGraph.Cycle
import ConstantFlow.Proofs.Propagation.Fixpoint

/-!
# Causes of what is known

A fact lists a variable only if there is a reason for it. What arrives at a node was let in by the
entry, for a parameter, or by a node that assigns the variable, and has come from there along at
least one edge. What leaves a node has arrived at it or is assigned there. Variables that share a
name but not their type are different ones, and none but those whose type fits a word is ever
listed.

Main results:

* `Justified.next`: a visit makes known only what there is a cause for
* `justified_of_reached`: so it is in every reached state
* `listed_only_with_cause`: and in every table that is returned
-/

namespace ConstantFlow

/-! ## Reasons -/

/-- The types that fit a word are built in; a reference type does not become one by its name. -/
theorem Var.tracked_iff {x : Var} :
    x.tracked = true ↔
      ∃ p ∈ [Primitive.byte, .short, .int, .char, .boolean], x.type = .primitive p := by
  rcases x with ⟨name, type⟩
  cases type with
  | primitive p => cases p <;> simp [tracked, VarType.fitsWord, Primitive.fitsWord]
  | reference n => simp [tracked, VarType.fitsWord]

/-- The node assigns the variable. -/
def Node.Assigns (n : Node) (x : Var) : Prop :=
  ∃ e, n.code = .assign (.var x) e

/-- Control can get from one node to the other, in at least one step. -/
def FlowGraph.Leads (g : FlowGraph) : Node → Node → Prop :=
  Relation.TransGen fun u v => (u, v) ∈ g.edges

/-- Why something may be known of a variable where control arrives at a node: it is a parameter and
control has come from the entry, or control has come from a node that assigns it. -/
def FlowGraph.Justifies (g : FlowGraph) (n : Node) (x : Var) : Prop :=
  x ∈ g.params ∧ g.Leads .entry n ∨ ∃ m ∈ g.nodes, m.Assigns x ∧ g.Leads m n

theorem FlowGraph.Justifies.tail {g : FlowGraph} {p n : Node} {x : Var} (h : g.Justifies p x)
    (he : (p, n) ∈ g.edges) : g.Justifies n x := by
  rcases h with ⟨hx, hp⟩ | ⟨m, hm, hx, hp⟩
  · exact Or.inl ⟨hx, hp.tail he⟩
  · exact Or.inr ⟨m, hm, hx, hp.tail he⟩

namespace Propagation

open Worklist

variable {g : FlowGraph} {s : State Fact}

/-! ## Where knowledge comes from -/

/-- What leaves a node has arrived there, is assigned there, or is a parameter at the entry. -/
theorem Invariant.source_of_output (hinv : Invariant g s) {n : Node} {x : Var}
    (h : (s.output analysis n).get x ≠ .undefined) :
    (s.input analysis n).get x ≠ .undefined ∨ (n.Assigns x ∧ x.tracked = true) ∨
      n = .entry ∧ x ∈ g.params ∧ x.tracked = true := by
  by_cases he : n = .entry
  · have hparam : x ∈ g.params ∧ x.tracked = true := by
      by_contra hno
      rw [he, hinv.entry_output, get_boundary, if_neg hno] at h
      exact h rfl
    exact Or.inr (Or.inr ⟨he, hparam⟩)
  · by_cases hdef : ∃ e, n.code.definition? = some (x, e)
    · obtain ⟨e, hd⟩ := hdef
      obtain ⟨hcode, htracked⟩ := Stmt.definition?_eq_some_iff.mp hd
      exact Or.inr (Or.inl ⟨⟨e, hcode⟩, htracked⟩)
    · exact Or.inl fun h0 => h (hinv.not_stale n he x (not_exists.mp hdef) h0)

/-- What arrives at a visit had arrived before or leaves a predecessor. -/
theorem Invariant.source_of_arrival (hinv : Invariant g s) {n : Node} {x : Var}
    (h : (arrival analysis g s n).get x ≠ .undefined) :
    (s.input analysis n).get x ≠ .undefined ∨
      ∃ p, (p, n) ∈ g.edges ∧ (s.output analysis p).get x ≠ .undefined := by
  by_contra hno
  push Not at hno
  have hle : (arrival analysis g s n).get x ≤ .undefined := by
    rw [get_arrival_le_iff hinv.lawful_output]
    refine ⟨le_of_eq hno.1, fun p hp => le_of_eq ?_⟩
    exact hno.2 p (FlowGraph.mem_preds_iff.mp hp)
  exact h (le_antisymm hle (Value.undefined_le _))

/-! ## Every entry has a reason -/

/-- What is known of a variable where control arrives is justified, and the variable is tracked. -/
def Justified (g : FlowGraph) (s : State Fact) : Prop :=
  ∀ n x, (s.input analysis n).get x ≠ .undefined → x.tracked = true ∧ g.Justifies n x

/-- What leaves a node is a reason for its successors. -/
theorem Justified.of_output (hg : g.WellFormed) (hinv : Invariant g s) (hs : Justified g s)
    {p n : Node} {x : Var} (he : (p, n) ∈ g.edges)
    (h : (s.output analysis p).get x ≠ .undefined) : x.tracked = true ∧ g.Justifies n x := by
  rcases hinv.source_of_output h with hin | ⟨hassigns, htracked⟩ | ⟨rfl, hparam, htracked⟩
  · obtain ⟨htracked, hp⟩ := hs p x hin
    exact ⟨htracked, hp.tail he⟩
  · exact ⟨htracked, Or.inr ⟨p, hg.source_mem he, hassigns, .single he⟩⟩
  · exact ⟨htracked, Or.inl ⟨hparam, .single he⟩⟩

/-- A visit lets in nothing without a reason. -/
theorem Justified.next (hg : g.WellFormed) (hc : Consistent g s) (hinv : Invariant g s)
    (hs : Justified g s) {n : Node} {rest : List Node} (hq : s.queue = n :: rest) :
    Justified g (Worklist.next analysis g s n rest) := by
  intro m x h
  rw [input_next analysis hc (hc.head_mem hq)] at h
  by_cases hm : m = n
  · rw [if_pos hm] at h
    rw [hm]
    rcases hinv.source_of_arrival h with hin | ⟨p, he, hout⟩
    · exact hs n x hin
    · exact hs.of_output hg hinv he hout
  · rw [if_neg hm] at h
    exact hs m x h

theorem justified_of_reached (hg : g.WellFormed) (h : Reached analysis g s) : Justified g s := by
  have hinv := h.invariant hg (P := Justified g) ?_ ?_
  · exact hinv.2
  · -- nothing is known where nothing has arrived yet
    intro n x hx
    rw [input_start] at hx
    exact absurd rfl hx
  · intro s n rest hr hc hq hs
    exact hs.next hg hc (invariant_of_reached hg hr) hq

/-- The rows of a consistent table are what the state says about the nodes. -/
theorem eq_of_mem_table (hg : g.WellFormed) (hc : Consistent g s) {n : Node}
    {facts : NodeFacts Fact} (h : (n, facts) ∈ s.table) :
    facts = { input := s.input analysis n, output := s.output analysis n } := by
  have hrow : s.table.lookup n = some facts :=
    Entries.lookup_of_mem (hc.nodes_eq ▸ hg.nodup_nodes) h
  have hnode : n ∈ s.table.map Prod.fst := List.mem_map_of_mem h
  rw [lookup_eq_some analysis hnode, Option.some.injEq] at hrow
  exact hrow.symm

/-- The rows of a returned table are what the last state of the run says about the nodes. -/
theorem row_of_solve (hg : g.WellFormed) {bound : Int} {table : FactTable Fact}
    (h : solve g bound = .ok table) {n : Node} {facts : NodeFacts Fact}
    (hrow : (n, facts) ∈ table) :
    ∃ s : State Fact, Reached analysis g s ∧ s.queue = [] ∧ n ∈ g.nodes ∧
      facts = { input := s.input analysis n, output := s.output analysis n } := by
  obtain ⟨_, hq, rfl⟩ := (solve_eq_ok_iff hg).mp h
  have hr := reached_after (a := analysis) hg bound.toNat
  have hc := hr.consistent hg
  exact ⟨_, hr, hq, hc.nodes_eq ▸ List.mem_map_of_mem hrow, eq_of_mem_table hg hc hrow⟩

theorem get_ne_of_mem_keys {f : Fact} (hf : f.Lawful) {x : Var} (hx : x ∈ f.keys) :
    f.get x ≠ .undefined := by
  obtain ⟨e, he, rfl⟩ := List.mem_map.mp hx
  rw [hf.get_of_mem he]
  exact hf.defined e he

/-- After any number of visits, a variable that is listed as arriving at a node has a type that fits
a word, and it is a parameter and control gets from the entry to the node, or control gets there
from a node that assigns it. A variable that is listed as leaving arrives, is tracked and assigned
there, or is a tracked parameter at the entry. No variable is listed as unknown. -/
theorem listed_only_with_cause {g : FlowGraph} (hg : g.Built) (k : Nat) {n : Node}
    {facts : NodeFacts Fact} (h : (n, facts) ∈ (after analysis g k).table) :
    (∀ x ∈ facts.input.keys,
      (∃ p ∈ [Primitive.byte, .short, .int, .char, .boolean], x.type = .primitive p) ∧
        (x ∈ g.params ∧ g.Leads .entry n ∨ ∃ m ∈ g.nodes, m.Assigns x ∧ g.Leads m n)) ∧
    (∀ x ∈ facts.output.keys,
      x ∈ facts.input.keys ∨ (n.Assigns x ∧ x.tracked = true) ∨
        n = .entry ∧ x ∈ g.params ∧ x.tracked = true) ∧
    (∀ e ∈ facts.input.entries, e.2 ≠ .undefined) ∧
    ∀ e ∈ facts.output.entries, e.2 ≠ .undefined := by
  have hwf := hg.wellFormed
  have hr := reached_after (a := analysis) hwf k
  have hinv := invariant_of_reached hwf hr
  obtain rfl := eq_of_mem_table hwf (hr.consistent hwf) h
  have hin := hinv.lawful_input n
  have hout := hinv.lawful_output n
  refine ⟨?_, ?_, hin.defined, hout.defined⟩
  · intro x hx
    obtain ⟨htracked, hcause⟩ := justified_of_reached hwf hr n x (get_ne_of_mem_keys hin hx)
    exact ⟨Var.tracked_iff.mp htracked, hcause⟩
  · intro x hx
    rcases hinv.source_of_output (get_ne_of_mem_keys hout hx) with hknown | hcause
    · exact Or.inl (List.mem_map_of_mem (Fact.mem_of_get hknown))
    · exact Or.inr hcause

/-! A parameter of a reference type called `int` and a variable of the same name that holds a
word. -/

namespace Namesake

def object : Var := { name := "x", type := .reference "int" }
def word : Var := { name := "x", type := .primitive .int }

def set : Node := .stmt 0 0 (.assign (.var word) (.lit 5))

def graph : FlowGraph :=
  [(.entry, set), (set, .exit)].foldl (fun g e => g.addEdge e.1 e.2) (.empty "f" [object])

theorem built : graph.Built :=
  (FlowGraph.Built.empty "f" [object]).foldl_addEdge _

/-- What the exit looks like after both visits. -/
theorem mem_table_exit :
    (.exit, { input := ⟨[(word, .const 5)]⟩, output := ⟨[(word, .const 5)]⟩ }) ∈
      (after analysis graph 2).table := by
  decide

end Namesake

open Namesake in
theorem listed_only_with_cause_namesake :
    (.exit, { input := ⟨[(word, .const 5)]⟩, output := ⟨[(word, .const 5)]⟩ }) ∈
        (after analysis graph 2).table ∧
      ∃ m ∈ graph.nodes, m.Assigns word ∧ graph.Leads m .exit := by
  refine ⟨mem_table_exit, ?_⟩
  have hcause := (listed_only_with_cause built 2 mem_table_exit).1 word (by decide)
  -- the parameter is another variable
  have hparam : word ∉ graph.params := by decide
  exact hcause.2.resolve_left fun h => hparam h.1

end Propagation

end ConstantFlow

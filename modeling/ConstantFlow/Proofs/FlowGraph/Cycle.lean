import ConstantFlow.Proofs.FlowGraph.Built
import Mathlib.Data.List.Chain
import Mathlib.Order.WellFoundedSet

/-!
# Cycles

A property of nodes that does not hold all round any cycle of a graph gives out along every path:
going on along edges as long as the property holds is well founded.

Main results:

* `Acyclic.wellFounded`: without cycles, going along edges is well founded
* `wellFounded_of_no_cycle`: so it is as far as a property holds that holds all round no cycle
-/

namespace ConstantFlow.FlowGraph

/-- The nodes of a cycle in order: an edge leads from each of them to the next, and from the last
to the first. -/
def IsCycle (g : FlowGraph) : List Node → Prop
  | [] => False
  | u :: us => List.IsChain (fun a b => (a, b) ∈ g.edges) (u :: us ++ [u])

theorem exists_next_of_isChain {R : Node → Node → Prop} {l : List Node} {z n : Node}
    (h : List.IsChain R (l ++ [z])) (hn : n ∈ l) : ∃ m, (m ∈ l ∨ m = z) ∧ R n m := by
  rcases List.append_of_mem hn with ⟨s, t, rfl⟩
  rw [List.append_assoc, List.cons_append] at h
  have htail := (List.isChain_split.mp h).2
  cases t with
  | nil => exact ⟨z, Or.inr rfl, (List.isChain_cons_cons.mp htail).1⟩
  | cons m t => exact ⟨m, Or.inl (by simp), (List.isChain_cons_cons.mp htail).1⟩

/-- Each node of a cycle has a successor on it. -/
theorem IsCycle.exists_succ {g : FlowGraph} {c : List Node} (h : g.IsCycle c) {n : Node}
    (hn : n ∈ c) : ∃ m ∈ c, (n, m) ∈ g.edges := by
  cases c with
  | nil => cases hn
  | cons u us =>
    rcases exists_next_of_isChain h hn with ⟨m, hm | rfl, he⟩
    · exact ⟨m, hm, he⟩
    · exact ⟨m, List.mem_cons_self, he⟩

theorem exists_isChain_of_transGen {R : Node → Node → Prop} {u v : Node}
    (h : Relation.TransGen R u v) : ∃ us, List.IsChain R (u :: us ++ [v]) := by
  induction h with
  | single huv => exact ⟨[], by simpa using huv⟩
  | @tail v w _ hvw ih =>
    rcases ih with ⟨us, hus⟩
    refine ⟨us ++ [v], ?_⟩
    rw [← List.cons_append, List.append_assoc]
    exact List.isChain_split.mpr ⟨hus, by simpa using hvw⟩

/-- A graph without a cycle. -/
def Acyclic (g : FlowGraph) : Prop :=
  ∀ c, ¬ g.IsCycle c

theorem Acyclic.irrefl {g : FlowGraph} (h : g.Acyclic) (u : Node) :
    ¬ Relation.TransGen (fun a b => (a, b) ∈ g.edges) u u := by
  intro hu
  rcases exists_isChain_of_transGen hu with ⟨us, hus⟩
  exact h (u :: us) hus

/-- A graph has no cycle if there is a rank that goes up along every edge. -/
theorem acyclic_of_rank {g : FlowGraph} (rank : Node → Nat)
    (h : ∀ e ∈ g.edges, rank e.1 < rank e.2) : g.Acyclic := by
  intro c hc
  cases c with
  | nil => exact hc
  | cons u us =>
    have hchain : List.IsChain (fun a b => rank a < rank b) (u :: us ++ [u]) :=
      List.IsChain.imp (fun a b he => h (a, b) he) hc
    have : IsTrans Node fun a b => rank a < rank b := ⟨fun _ _ _ hab hbc => hab.trans hbc⟩
    have hall := List.pairwise_cons.mp (List.isChain_iff_pairwise.mp hchain)
    exact Nat.lt_irrefl _ (hall.1 u (by simp))

/-- A relation among the nodes of a graph that never leads back to where it started is well
founded, since there are only finitely many of them. -/
theorem wellFounded_of_irrefl {g : FlowGraph} {R : Node → Node → Prop}
    (hR : ∀ u v, R u v → u ∈ g.nodes ∧ v ∈ g.nodes) (h : ∀ u, ¬ Relation.TransGen R u u) :
    WellFounded R := by
  have hstrict : IsStrictOrder Node (Relation.TransGen R) :=
    { irrefl := h, trans := fun _ _ _ hab hbc => hab.trans hbc }
  have hwf := (List.finite_toSet g.nodes).wellFoundedOn (r := Relation.TransGen R)
  rw [Set.wellFoundedOn_iff] at hwf
  exact Subrelation.wf (fun {u v} huv => ⟨.single huv, hR u v huv⟩) hwf

/-- Without a cycle, going back along edges comes to an end. -/
theorem Acyclic.wellFounded {g : FlowGraph} (hg : g.WellFormed) (h : g.Acyclic) :
    WellFounded fun u v => (u, v) ∈ g.edges :=
  wellFounded_of_irrefl (fun _ _ he => ⟨hg.source_mem he, hg.target_mem he⟩) h.irrefl

/-- Where `P` does not hold all round any cycle, no path goes on for ever through nodes with
`P`. -/
theorem wellFounded_of_no_cycle {g : FlowGraph} (hg : g.WellFormed) {P : Node → Prop}
    (h : ¬ ∃ c, g.IsCycle c ∧ ∀ n ∈ c, P n) :
    WellFounded fun v u => P u ∧ (u, v) ∈ g.edges := by
  apply wellFounded_of_irrefl fun v u he => ⟨hg.target_mem he.2, hg.source_mem he.2⟩
  intro u hu
  -- read forwards, a way back to `u` is a cycle of nodes with `P`
  rcases exists_isChain_of_transGen (Relation.transGen_swap.mpr hu) with ⟨us, hus⟩
  refine h ⟨u :: us, hus.imp fun _ _ hab => hab.2, ?_⟩
  intro n hn
  rcases exists_next_of_isChain hus hn with ⟨_, _, hP⟩
  exact hP.1

end ConstantFlow.FlowGraph

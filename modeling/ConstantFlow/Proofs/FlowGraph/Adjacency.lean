import ConstantFlow.FlowGraph.Adjacency
import ConstantFlow.Proofs.Fact
import ConstantFlow.Proofs.FlowGraph.Insertion

/-!
# Adjacency tables in step

Nodes and edges are added to the node list and to the two tables one by one, and nothing but the
table of successors is asked what is there already. All the same the three stay in step.

Main results:

* `Represents.addEdge`: tables that represent a graph still do so after an addition to both, and no
  list is missing to which an edge would be added; likewise `Represents.addNode`
* `represents_build`: so any additions can be made, and the tables represent the graph that they
  make
* `tables_follow_first_additions`: what the tables hold after any additions
-/

namespace ConstantFlow.Adjacency

open FlowGraph (Addition)

/-! ## One table -/

/-- The table has the value of a function for each of the nodes, in their order, and no other
entry. -/
structure Tabulates (table : List (Node × List Node)) (nodes : List Node)
    (f : Node → List Node) : Prop where
  keys_eq : table.map Prod.fst = nodes
  lookup_eq : ∀ n, table.lookup n = if n ∈ nodes then some (f n) else none

section Table

variable {table : List (Node × List Node)} {nodes : List Node} {f f' : Node → List Node}

/-- A new node gets an entry behind the others. -/
theorem Tabulates.put_new (h : Tabulates table nodes f) {n : Node} (hn : n ∉ nodes)
    (hf : f n = []) : Tabulates (Entries.put n [] table) (nodes ++ [n]) f := by
  constructor
  case keys_eq =>
    rw [Entries.put_of_not_mem (h.keys_eq ▸ hn), List.map_append, h.keys_eq]
    rfl
  case lookup_eq =>
    intro m
    rw [Entries.lookup_put]
    by_cases hm : m = n
    · rw [if_pos hm, hm, if_pos (by simp), hf]
    · have hmem : m ∈ nodes ++ [n] ↔ m ∈ nodes := by simp [hm]
      rw [if_neg hm, h.lookup_eq]
      simp only [hmem]

/-- The entry of a node can be replaced where it stands. -/
theorem Tabulates.put_old (h : Tabulates table nodes f) {n : Node} (hn : n ∈ nodes)
    (hf : ∀ m, m ≠ n → f' m = f m) : Tabulates (Entries.put n (f' n) table) nodes f' := by
  constructor
  case keys_eq =>
    rw [Entries.map_fst_put_of_mem (h.keys_eq ▸ hn)]
    exact h.keys_eq
  case lookup_eq =>
    intro m
    rw [Entries.lookup_put]
    by_cases hm : m = n
    · rw [if_pos hm, hm, if_pos hn]
    · rw [if_neg hm, h.lookup_eq, hf m hm]

end Table

/-! ## One addition -/

/-- The tables hold the nodes and the neighbours of a graph. -/
structure Represents (t : Adjacency) (g : FlowGraph) : Prop where
  nodes_eq : t.nodes = g.nodes
  succs : Tabulates t.succs g.nodes g.succs
  preds : Tabulates t.preds g.nodes g.preds

variable {t : Adjacency} {g : FlowGraph}

theorem Represents.succs?_eq (h : t.Represents g) (n : Node) : t.succs? n = g.succs? n :=
  h.succs.lookup_eq n

theorem Represents.preds?_eq (h : t.Represents g) (n : Node) : t.preds? n = g.preds? n :=
  h.preds.lookup_eq n

theorem Represents.contains_iff (h : t.Represents g) (n : Node) :
    t.contains n = true ↔ n ∈ g.nodes := by
  rw [contains, h.succs?_eq, FlowGraph.succs?]
  by_cases hn : n ∈ g.nodes
  · simp [hn]
  · simp [hn]

/-- A node that is not there has no neighbours. -/
theorem neighbours_eq_nil (hg : g.WellFormed) {n : Node} (hn : n ∉ g.nodes) :
    g.succs n = [] ∧ g.preds n = [] := by
  rw [List.eq_nil_iff_forall_not_mem, List.eq_nil_iff_forall_not_mem]
  constructor
  · intro m hm
    exact hn (hg.source_mem (FlowGraph.mem_succs_iff.mp hm))
  · intro m hm
    exact hn (hg.target_mem (FlowGraph.mem_preds_iff.mp hm))

theorem Represents.addNode (h : t.Represents g) (hg : g.WellFormed) (n : Node) :
    (t.addNode n).Represents (g.addNode n) := by
  by_cases hn : n ∈ g.nodes
  · have ht : t.addNode n = t := if_pos ((h.contains_iff n).mpr hn)
    have hsame : g.addNode n = g := if_pos hn
    rw [ht, hsame]
    exact h
  · have ht : t.addNode n =
        { nodes := t.nodes ++ [n], succs := Entries.put n [] t.succs
          preds := Entries.put n [] t.preds } :=
      if_neg (mt (h.contains_iff n).mp hn)
    have hgrown : g.addNode n = { g with nodes := g.nodes ++ [n] } := if_neg hn
    have hnil := neighbours_eq_nil hg hn
    rw [ht, hgrown]
    exact ⟨congrArg (· ++ [n]) h.nodes_eq, h.succs.put_new hn hnil.1, h.preds.put_new hn hnil.2⟩

theorem succs_concat (g : FlowGraph) (u v n : Node) :
    FlowGraph.succs { g with edges := g.edges ++ [(u, v)] } n =
      if n = u then g.succs n ++ [v] else g.succs n := by
  rw [FlowGraph.succs, List.filterMap_append]
  by_cases hn : n = u
  · simp [hn, FlowGraph.succs]
  · simp [hn, Ne.symm hn, FlowGraph.succs]

theorem preds_concat (g : FlowGraph) (u v n : Node) :
    FlowGraph.preds { g with edges := g.edges ++ [(u, v)] } n =
      if n = v then g.preds n ++ [u] else g.preds n := by
  rw [FlowGraph.preds, List.filterMap_append]
  by_cases hn : n = v
  · simp [hn, FlowGraph.preds]
  · simp [hn, Ne.symm hn, FlowGraph.preds]

/-- One more edge between nodes that are there goes into both tables. -/
theorem Represents.connect (h : t.Represents g) {u v : Node} (hu : u ∈ g.nodes)
    (hv : v ∈ g.nodes) :
    Represents
      { t with
        succs := Entries.put u (g.succs u ++ [v]) t.succs
        preds := Entries.put v (g.preds v ++ [u]) t.preds }
      { g with edges := g.edges ++ [(u, v)] } := by
  have hsuccs := h.succs.put_old hu fun m hm => (succs_concat g u v m).trans (if_neg hm)
  have hpreds := h.preds.put_old hv fun m hm => (preds_concat g u v m).trans (if_neg hm)
  rw [succs_concat, if_pos rfl] at hsuccs
  rw [preds_concat, if_pos rfl] at hpreds
  exact ⟨h.nodes_eq, hsuccs, hpreds⟩

theorem Represents.addEdge (h : t.Represents g) (hg : g.WellFormed) (u v : Node) :
    ∃ t', t.addEdge u v = some t' ∧ t'.Represents (g.addEdge u v) := by
  -- once both ends have been added, each of them has its two lists
  have hends := (h.addNode hg u).addNode (hg.addNode u) v
  have hu : u ∈ ((g.addNode u).addNode v).nodes := by
    rw [FlowGraph.mem_nodes_addNode, FlowGraph.mem_nodes_addNode]
    exact Or.inl (Or.inr rfl)
  have hv : v ∈ ((g.addNode u).addNode v).nodes := by
    rw [FlowGraph.mem_nodes_addNode]
    exact Or.inr rfl
  have hsuccs := (hends.succs?_eq u).trans (if_pos hu)
  have hpreds := (hends.preds?_eq v).trans (if_pos hv)
  unfold Adjacency.addEdge FlowGraph.addEdge
  by_cases hold : (u, v) ∈ ((g.addNode u).addNode v).edges
  · have hlisted := FlowGraph.mem_succs_iff.mpr hold
    simp only [hsuccs, hold, hlisted, Option.bind_eq_bind, Option.bind_some, if_true]
    exact ⟨_, rfl, hends⟩
  · have hlisted := mt FlowGraph.mem_succs_iff.mp hold
    simp only [hsuccs, hpreds, hold, hlisted, Option.bind_eq_bind, Option.bind_some, if_false]
    exact ⟨_, rfl, hends.connect hu hv⟩

/-! ## Any additions -/

def add (t : Adjacency) : Addition → Option Adjacency
  | .node n => some (t.addNode n)
  | .edge u v => t.addEdge u v

/-- The tables that a list of additions makes, from those of entry and exit. -/
def build (calls : List Addition) : Option Adjacency :=
  calls.foldlM add empty

theorem represents_empty (name : String) (params : List Var) :
    empty.Represents (.empty name params) := by
  have htable : ∀ f : Node → List Node, (∀ n, f n = []) →
      Tabulates [(.entry, []), (.exit, [])] [.entry, .exit] f := by
    intro f hf
    have hbare : Tabulates [] [] f := ⟨rfl, fun _ => rfl⟩
    exact (hbare.put_new (n := .entry) (by simp) (hf _)).put_new (n := .exit) (by simp) (hf _)
  exact ⟨rfl, htable _ fun _ => rfl, htable _ fun _ => rfl⟩

theorem Represents.add (h : t.Represents g) (hg : g.WellFormed) (a : Addition) :
    ∃ t', t.add a = some t' ∧ t'.Represents (g.add a) := by
  cases a with
  | node n => exact ⟨_, rfl, h.addNode hg n⟩
  | edge u v => exact h.addEdge hg u v

/-- Any additions can be made, and the tables represent the graph that they make. -/
theorem represents_build (name : String) (params : List Var) (calls : List Addition) :
    ∃ t, build calls = some t ∧ t.Represents (FlowGraph.build name params calls) := by
  induction calls using List.reverseRecOn with
  | nil => exact ⟨empty, rfl, represents_empty name params⟩
  | append_singleton calls a ih =>
    obtain ⟨t, ht, hrep⟩ := ih
    obtain ⟨t', ht', hrep'⟩ := hrep.add (FlowGraph.built_build name params calls).wellFormed a
    refine ⟨t', ?_, ?_⟩
    · rw [build, List.foldlM_append, ← build, ht]
      simp [ht']
    · rw [FlowGraph.build_concat]
      exact hrep'

/-! ## What the tables hold -/

/-- What tables hold after additions, in terms of these alone. -/
structure AsAdded (calls : List Addition) (t : Adjacency) : Prop where
  nodup_nodes : t.nodes.Nodup
  entry_and_exit_first : [.entry, .exit] <+: t.nodes
  /-- The nodes are those that have been named, in the order in which they first were. -/
  nodes_eq : t.nodes = ([Node.entry, .exit] ++ calls.flatMap Addition.nodes).eraseDups
  contains_iff : ∀ n, t.contains n = true ↔ n ∈ t.nodes
  /-- Each table has one list for each node, in the order of the nodes. -/
  keys_succs : t.succs.map Prod.fst = t.nodes
  keys_preds : t.preds.map Prod.fst = t.nodes
  /-- The two tables agree on what follows what. -/
  agree : ∀ u v, (∃ vs ∈ t.succs? u, v ∈ vs) ↔ ∃ us ∈ t.preds? v, u ∈ us
  /-- A node follows another exactly if the edge has been added. -/
  follows_iff : ∀ u v, (∃ vs ∈ t.succs? u, v ∈ vs) ↔ .edge u v ∈ calls
  nodup_neighbours : ∀ n ns, ns ∈ t.succs? n ∨ ns ∈ t.preds? n → ns.Nodup
  neighbours_mem : ∀ n ns, ns ∈ t.succs? n ∨ ns ∈ t.preds? n → ∀ m ∈ ns, m ∈ t.nodes
  /-- Neighbours come in the order in which they were first given, and a node that was never named
  has no list of them. -/
  succs?_eq : ∀ n, t.succs? n =
    if n ∈ t.nodes then some (calls.filterMap (Addition.succ? n)).eraseDups else none
  preds?_eq : ∀ n, t.preds? n =
    if n ∈ t.nodes then some (calls.filterMap (Addition.pred? n)).eraseDups else none

/-- What is listed stays where it is, and more may come behind it. -/
structure Extends (t t' : Adjacency) : Prop where
  nodes : t.nodes <+: t'.nodes
  succs : ∀ n, ∀ ns ∈ t.succs? n, ∃ ns' ∈ t'.succs? n, ns <+: ns'
  preds : ∀ n, ∀ ns ∈ t.preds? n, ∃ ns' ∈ t'.preds? n, ns <+: ns'

/-! ### Reading the tables of a graph -/

theorem Represents.eq_of_mem_succs? (h : t.Represents g) {n : Node} {ns : List Node}
    (hns : ns ∈ t.succs? n) : n ∈ g.nodes ∧ ns = g.succs n := by
  rw [h.succs?_eq, FlowGraph.succs?, Option.mem_def, Option.ite_none_right_eq_some] at hns
  exact ⟨hns.1, (Option.some.inj hns.2).symm⟩

theorem Represents.eq_of_mem_preds? (h : t.Represents g) {n : Node} {ns : List Node}
    (hns : ns ∈ t.preds? n) : n ∈ g.nodes ∧ ns = g.preds n := by
  rw [h.preds?_eq, FlowGraph.preds?, Option.mem_def, Option.ite_none_right_eq_some] at hns
  exact ⟨hns.1, (Option.some.inj hns.2).symm⟩

/-- The successors that are listed are the edges of the graph. -/
theorem Represents.succ_listed_iff (h : t.Represents g) (hg : g.WellFormed) {u v : Node} :
    (∃ vs ∈ t.succs? u, v ∈ vs) ↔ (u, v) ∈ g.edges := by
  constructor
  · rintro ⟨vs, hvs, hv⟩
    rw [(h.eq_of_mem_succs? hvs).2] at hv
    exact FlowGraph.mem_succs_iff.mp hv
  · intro he
    refine ⟨g.succs u, ?_, FlowGraph.mem_succs_iff.mpr he⟩
    exact (h.succs?_eq u).trans (if_pos (hg.source_mem he))

/-- The predecessors that are listed are the same edges. -/
theorem Represents.pred_listed_iff (h : t.Represents g) (hg : g.WellFormed) {u v : Node} :
    (∃ us ∈ t.preds? v, u ∈ us) ↔ (u, v) ∈ g.edges := by
  constructor
  · rintro ⟨us, hus, hu⟩
    rw [(h.eq_of_mem_preds? hus).2] at hu
    exact FlowGraph.mem_preds_iff.mp hu
  · intro he
    refine ⟨g.preds v, ?_, FlowGraph.mem_preds_iff.mpr he⟩
    exact (h.preds?_eq v).trans (if_pos (hg.target_mem he))

theorem Represents.extends {g' : FlowGraph} {t' : Adjacency} (h : t.Represents g)
    (h' : t'.Represents g') (hnodes : g.nodes <+: g'.nodes)
    (hlists : ∀ n, g.succs n <+: g'.succs n ∧ g.preds n <+: g'.preds n) : t.Extends t' := by
  constructor
  case nodes =>
    rw [h.nodes_eq, h'.nodes_eq]
    exact hnodes
  case succs =>
    intro n ns hns
    obtain ⟨hn, rfl⟩ := h.eq_of_mem_succs? hns
    exact ⟨_, (h'.succs?_eq n).trans (if_pos (hnodes.subset hn)), (hlists n).1⟩
  case preds =>
    intro n ns hns
    obtain ⟨hn, rfl⟩ := h.eq_of_mem_preds? hns
    exact ⟨_, (h'.preds?_eq n).trans (if_pos (hnodes.subset hn)), (hlists n).2⟩

/-- Tables that represent the graph of some additions hold what these say. -/
theorem Represents.asAdded {name : String} {params : List Var} {calls : List Addition}
    (h : t.Represents (FlowGraph.build name params calls)) : AsAdded calls t := by
  have hg := (FlowGraph.built_build name params calls).wellFormed
  constructor
  case nodup_nodes =>
    rw [h.nodes_eq]
    exact hg.nodup_nodes
  case entry_and_exit_first =>
    rw [h.nodes_eq]
    exact (FlowGraph.build_isPrefix name params [] calls).1
  case nodes_eq => exact h.nodes_eq.trans (FlowGraph.nodes_build name params calls)
  case contains_iff =>
    intro n
    rw [h.nodes_eq, h.contains_iff]
  case keys_succs => exact h.succs.keys_eq.trans h.nodes_eq.symm
  case keys_preds => exact h.preds.keys_eq.trans h.nodes_eq.symm
  case agree =>
    intro u v
    rw [h.succ_listed_iff hg, h.pred_listed_iff hg]
  case follows_iff =>
    intro u v
    rw [h.succ_listed_iff hg, ← FlowGraph.mem_succs_iff, FlowGraph.mem_succs_build]
  case nodup_neighbours =>
    rintro n ns (hns | hns)
    · rw [(h.eq_of_mem_succs? hns).2]
      exact (FlowGraph.nodup_neighbours name params calls n).1
    · rw [(h.eq_of_mem_preds? hns).2]
      exact (FlowGraph.nodup_neighbours name params calls n).2
  case neighbours_mem =>
    rintro n ns hns m hm
    rw [h.nodes_eq]
    rcases hns with hns | hns
    · rw [(h.eq_of_mem_succs? hns).2] at hm
      exact FlowGraph.neighbour_mem name params calls (Or.inl hm)
    · rw [(h.eq_of_mem_preds? hns).2] at hm
      exact FlowGraph.neighbour_mem name params calls (Or.inr hm)
  case succs?_eq =>
    intro n
    rw [h.nodes_eq, ← FlowGraph.succs_build name params]
    exact h.succs?_eq n
  case preds?_eq =>
    intro n
    rw [h.nodes_eq, ← FlowGraph.preds_build name params]
    exact h.preds?_eq n

/-- Any additions can be made, in any order and any number. The tables then hold what the additions
say, the one of predecessors as well as the one of successors; they represent the graph that the
additions make; and more additions leave all that is listed where it is. -/
theorem tables_follow_first_additions (name : String) (params : List Var)
    (calls : List Addition) :
    ∃ t, build calls = some t ∧ AsAdded calls t ∧
      t.Represents (FlowGraph.build name params calls) ∧
      ∀ more, ∃ t', build (calls ++ more) = some t' ∧ t.Extends t' := by
  obtain ⟨t, ht, hrep⟩ := represents_build name params calls
  refine ⟨t, ht, hrep.asAdded, hrep, fun more => ?_⟩
  obtain ⟨t', ht', hrep'⟩ := represents_build name params (calls ++ more)
  have hprefix := FlowGraph.build_isPrefix name params calls more
  exact ⟨t', ht', hrep.extends hrep' hprefix.1 hprefix.2⟩

/-! A node that is added before its edges, a self loop, an edge that is added twice, and an edge
from the exit back to the entry. -/

namespace Tangled

def early : Node := .stmt 0 0 .nop

def late : Node := .stmt 1 1 .nop

def calls : List Addition :=
  [.edge .entry late, .node early, .edge late late, .edge late early, .edge .exit .entry,
    .edge .entry late, .edge early .exit, .edge late .exit]

end Tangled

open Tangled in
theorem tables_follow_first_additions_tangled :
    ∃ t, build calls = some t ∧ t.nodes = [.entry, .exit, late, early] ∧
      t.succs? late = some [late, early, .exit] ∧ t.preds? .exit = some [early, late] ∧
      ∃ us ∈ t.preds? late, late ∈ us := by
  obtain ⟨t, ht, hadded, _⟩ := tables_follow_first_additions "tangle" [] calls
  have hloop := (hadded.follows_iff late late).mpr (by decide)
  refine ⟨t, ht, hadded.nodes_eq.trans (by decide), ?_, ?_, (hadded.agree late late).mp hloop⟩
  · rw [hadded.succs?_eq, hadded.nodes_eq]
    decide
  · rw [hadded.preds?_eq, hadded.nodes_eq]
    decide

end ConstantFlow.Adjacency

import ConstantFlow.Proofs.FlowGraph.Order
import Mathlib.Logic.Relation

/-!
# What a depth-first search finds

A search from the entry finds the nodes that control can reach, and it leaves a node after its
successors, cycles apart: a successor that the search has entered and not left yet lies on the way
to the current node, so control can get back from it. In the reverse order in which the nodes are
left, the successors of a node therefore stand further down, except those that lead back to it.

Main results:

* `orders_explore_succ`: what one level of the search adds to the order
* `mem_finished_iff_reaches`: the search finds what can be reached
* `sublist_reversePostorder_or_reaches`: a successor stands further down, or it leads back
-/

namespace ConstantFlow.FlowGraph

/-- Control can get from one node to the other, in any number of steps. -/
def Reaches (g : FlowGraph) : Node → Node → Prop :=
  Relation.ReflTransGen fun u v => (u, v) ∈ g.edges

theorem Reaches.tail {g : FlowGraph} {u v w : Node} (h : g.Reaches u v) (he : (v, w) ∈ g.edges) :
    g.Reaches u w :=
  Relation.ReflTransGen.tail h he

theorem Reaches.head {g : FlowGraph} {u v w : Node} (he : (u, v) ∈ g.edges) (h : g.Reaches v w) :
    g.Reaches u w :=
  Relation.ReflTransGen.head he h

/-! ## Descending order -/

/-- Each node of the list has its successors further down, except those that lead back to it. -/
def Descending (g : FlowGraph) : List Node → Prop
  | [] => True
  | u :: us => (∀ v, (u, v) ∈ g.edges → v ∈ us ∨ g.Reaches v u) ∧ Descending g us

/-- In a descending list the source of an edge stands before its end, unless that leads back. -/
theorem Descending.sublist_or_reaches {g : FlowGraph} {l : List Node} (h : g.Descending l)
    {u v : Node} (hu : u ∈ l) (he : (u, v) ∈ g.edges) : [u, v].Sublist l ∨ g.Reaches v u := by
  induction l with
  | nil => cases hu
  | cons w l ih =>
    rcases List.mem_cons.mp hu with rfl | hu
    · exact (h.1 v he).imp_left fun hv => (List.singleton_sublist.mpr hv).cons_cons u
    · exact (ih h.2 hu).imp_left fun hl => hl.cons w

/-! ## The search -/

namespace Search

/-- The nodes that the search has left are in descending order, and it has seen their successors. -/
structure Ordered (g : FlowGraph) (s : Search) : Prop where
  descending : g.Descending s.finished
  succ_seen : ∀ {u v : Node}, u ∈ s.finished → (u, v) ∈ g.edges → v ∈ s.seen

/-- A search that sees more nodes is ordered if it was so and has not left any other node. -/
theorem Ordered.enter {g : FlowGraph} {s : Search} (h : s.Ordered g) (n : Node) :
    Ordered g { s with seen := n :: s.seen } where
  descending := h.descending
  succ_seen := fun hu he => List.mem_cons_of_mem _ (h.succ_seen hu he)

end Search

open Search

/-- What a search has gained when it has gone on from `s` with what can be reached from `n`: it has
forgotten no node, it has found only such nodes, and it is ordered. -/
structure Orders (g : FlowGraph) (n : Node) (s t : Search) : Prop where
  seen_subset : s.seen ⊆ t.seen
  found : ∀ m ∈ t.seen, m ∈ s.seen ∨ g.Reaches n m
  ordered : t.Ordered g

theorem Orders.refl {g : FlowGraph} (n : Node) {s : Search} (h : s.Ordered g) : Orders g n s s :=
  ⟨List.Subset.refl _, fun _ hm => Or.inl hm, h⟩

theorem Orders.trans {g : FlowGraph} {n : Node} {s t r : Search} (h : Orders g n s t)
    (h' : Orders g n t r) : Orders g n s r where
  seen_subset := fun _ hm => h'.seen_subset (h.seen_subset hm)
  found := fun m hm => (h'.found m hm).elim (h.found m) Or.inr
  ordered := h'.ordered

/-- Searching from a node that all open nodes lead to keeps the search ordered, if enough levels are
left for the nodes that have not been seen. -/
def Sorts (g : FlowGraph) (depth : Nat) : Prop :=
  ∀ (n : Node) (s : Search), s.Coherent g → s.Open n → g.size < depth + s.seen.length →
    (∀ m, s.Open m → g.Reaches m n) → s.Ordered g → Orders g n s (g.explore depth n s)

/-- Where that holds one level further down, it holds for a successor of `n`, which has then been
seen. -/
theorem orders_explore_succ {g : FlowGraph} (hg : g.WellFormed) {depth : Nat}
    (hsorts : Sorts g depth) {n : Node} {s : Search}
    (hdepth : g.size < depth + 1 + s.seen.length) (hopen : ∀ m, s.Open m → g.Reaches m n)
    {v : Node} (hv : (n, v) ∈ g.edges) {t : Search} (ht : Extends g s t s.Open)
    (hord : t.Ordered g) :
    let r := if v ∈ t.seen then t else g.explore depth v { t with seen := v :: t.seen }
    Orders g n t r ∧ v ∈ r.seen := by
  by_cases hseen : v ∈ t.seen
  · rw [if_pos hseen]
    exact ⟨.refl n hord, hseen⟩
  · rw [if_neg hseen]
    have hlen := ht.length_le
    have hreach : ∀ m, Open { t with seen := v :: t.seen } m → g.Reaches m v := by
      intro m hm
      rcases (open_enter ht.coherent hseen).mp hm with rfl | hm
      · exact .refl
      · exact (hopen m ((ht.open_iff m).mp hm)).tail hv
    have hrec := hsorts v { t with seen := v :: t.seen }
      (ht.coherent.enter (hg.target_mem hv) hseen)
      ((open_enter ht.coherent hseen).mpr (Or.inl rfl))
      (by simp only [List.length_cons]; omega) hreach (hord.enter v)
    refine ⟨⟨fun m hm => hrec.seen_subset (List.mem_cons_of_mem _ hm), fun m hm => ?_,
      hrec.ordered⟩, hrec.seen_subset List.mem_cons_self⟩
    rcases hrec.found m hm with hm | hm
    · exact (List.mem_cons.mp hm).elim (fun h => Or.inr (h ▸ .single hv)) Or.inl
    · exact Or.inr (hm.head hv)

/-- So it holds for a list of successors. -/
theorem orders_foldl_explore {g : FlowGraph} (hg : g.WellFormed) {depth : Nat}
    (hsorts : Sorts g depth) {n : Node} {s : Search}
    (hdepth : g.size < depth + 1 + s.seen.length) (hopen : ∀ m, s.Open m → g.Reaches m n)
    {vs : List Node} (hvs : ∀ v ∈ vs, (n, v) ∈ g.edges) {t : Search}
    (ht : Extends g s t s.Open) (hord : t.Ordered g) :
    let r := vs.foldl (fun t v =>
      if v ∈ t.seen then t else g.explore depth v { t with seen := v :: t.seen }) t
    Orders g n t r ∧ ∀ v ∈ vs, v ∈ r.seen := by
  induction vs generalizing t with
  | nil => exact ⟨.refl n hord, nofun⟩
  | cons v vs ih =>
    have hv : (n, v) ∈ g.edges := hvs v List.mem_cons_self
    have hrest : ∀ w ∈ vs, (n, w) ∈ g.edges := fun w hw => hvs w (List.mem_cons_of_mem _ hw)
    have hfirst := orders_explore_succ hg hsorts hdepth hopen hv ht hord
    have hext : Extends g s _ s.Open :=
      extends_foldl_explore (closes_of_wellFormed hg depth) hdepth
        (fun w (hw : w ∈ [v]) => List.mem_singleton.mp hw ▸ hg.target_mem hv) ht
    have hlater := ih hrest hext hfirst.1.ordered
    refine ⟨hfirst.1.trans hlater.1, ?_⟩
    intro w hw
    rcases List.mem_cons.mp hw with rfl | hw
    · exact hlater.1.seen_subset hfirst.2
    · exact hlater.2 w hw

theorem sorts_of_wellFormed {g : FlowGraph} (hg : g.WellFormed) (depth : Nat) : Sorts g depth := by
  induction depth with
  | zero =>
    intro n s hs hn hdepth
    have hle := hs.length_seen_le
    omega
  | succ depth ih =>
    intro n s hs hn hdepth hopen hord
    have hstart : Extends g s s s.Open := ⟨hs, Nat.le_refl _, fun _ => Iff.rfl⟩
    have hedges : ∀ v ∈ g.succs n, (n, v) ∈ g.edges := fun _ => mem_succs_iff.mp
    have hsuccs : ∀ v ∈ g.succs n, v ∈ g.nodes := fun v hv => hg.target_mem (hedges v hv)
    have hext := extends_foldl_explore (closes_of_wellFormed hg depth) hdepth hsuccs hstart
    obtain ⟨hfold, hseen⟩ := orders_foldl_explore hg ih hdepth hopen hedges hstart hord
    refine ⟨hfold.seen_subset, hfold.found, ⟨fun v he => ?_, hfold.ordered.descending⟩, ?_⟩
    · -- a successor that has not been left is still open, so it leads to `n`
      refine or_iff_not_imp_left.mpr fun hv => hopen v ((hext.open_iff v).mp ?_)
      exact ⟨hseen v (mem_succs_iff.mpr he), hv⟩
    · intro u v hu he
      rcases List.mem_cons.mp hu with rfl | hu
      · exact hseen v (mem_succs_iff.mpr he)
      · exact hfold.ordered.succ_seen hu he

/-! ## The search from the entry -/

section Entry

variable {g : FlowGraph} (hg : g.WellFormed)

include hg

theorem orders_searched : Orders g .entry { seen := [.entry], finished := [] } g.searched := by
  have hopen : ∀ m, Open { seen := [.entry], finished := [] } m → g.Reaches m .entry := by
    intro m hm
    rw [open_entered.mp hm]
    exact .refl
  exact sorts_of_wellFormed hg g.size .entry _ (coherent_entered hg) (open_entered.mpr rfl)
    (by simp) hopen ⟨trivial, nofun⟩

/-- The search finds the nodes that can be reached from the entry. -/
theorem mem_seen_iff_reaches {n : Node} : n ∈ g.searched.seen ↔ g.Reaches .entry n := by
  have horders := orders_searched hg
  constructor
  · intro hn
    rcases horders.found n hn with hn | hn
    · rw [List.mem_singleton.mp hn]
      exact .refl
    · exact hn
  · intro hr
    induction hr with
    | refl => exact horders.seen_subset (List.mem_singleton_self _)
    | tail _ he ih => exact horders.ordered.succ_seen ((mem_finished_iff_mem_seen hg).mpr ih) he

theorem mem_finished_iff_reaches {n : Node} :
    n ∈ g.searched.finished ↔ g.Reaches .entry n :=
  (mem_finished_iff_mem_seen hg).trans (mem_seen_iff_reaches hg)

/-- The source of an edge that can be reached from the entry comes before its end, unless that leads
back. -/
theorem sublist_reversePostorder_or_reaches {u v : Node} (he : (u, v) ∈ g.edges)
    (hu : g.Reaches .entry u) : [u, v].Sublist g.reversePostorder ∨ g.Reaches v u := by
  have hsplit := (orders_searched hg).ordered.descending.sublist_or_reaches
    ((mem_finished_iff_reaches hg).mpr hu) he
  exact hsplit.imp_left fun h => h.trans (List.sublist_append_left _ _)

end Entry

end ConstantFlow.FlowGraph

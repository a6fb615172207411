import ConstantFlow.FlowGraph.Order
import ConstantFlow.Proofs.FlowGraph.Built
import Mathlib.Data.List.Perm.Subperm

/-!
# Reverse postorder lists every node once

A node is open while a depth-first search has entered it and not left it yet. Searching from an
open node closes that node and no other, provided that the depth allowed is not used up; this holds
since every level of the search has entered a node of its own. So nothing stays open in the end.

Main results:

* `closes_of_wellFormed`: a search from an open node closes that node and no other
* `reversePostorder_perm`: reverse postorder lists the nodes of the graph, each once
-/

namespace ConstantFlow.FlowGraph

namespace Search

/-- Nodes are entered and left at most once, and only nodes of the graph. -/
structure Coherent (g : FlowGraph) (s : Search) : Prop where
  nodup_seen : s.seen.Nodup
  nodup_finished : s.finished.Nodup
  seen_of_finished : ∀ {n : Node}, n ∈ s.finished → n ∈ s.seen
  mem_nodes : ∀ {n : Node}, n ∈ s.seen → n ∈ g.nodes

/-- The node has been entered and not left. -/
def Open (s : Search) (n : Node) : Prop :=
  n ∈ s.seen ∧ n ∉ s.finished

theorem Coherent.length_seen_le {g : FlowGraph} {s : Search} (h : s.Coherent g) :
    s.seen.length ≤ g.size :=
  (List.Nodup.subperm h.nodup_seen fun _ hn => h.mem_nodes hn).length_le

/-- A search may enter a node of the graph that it has not seen. -/
theorem Coherent.enter {g : FlowGraph} {s : Search} (h : s.Coherent g) {n : Node}
    (hn : n ∈ g.nodes) (hs : n ∉ s.seen) : Coherent g { s with seen := n :: s.seen } where
  nodup_seen := List.nodup_cons.mpr ⟨hs, h.nodup_seen⟩
  nodup_finished := h.nodup_finished
  seen_of_finished := fun hm => List.mem_cons_of_mem _ (h.seen_of_finished hm)
  mem_nodes := by
    intro m hm
    rcases List.mem_cons.mp hm with rfl | hm
    · exact hn
    · exact h.mem_nodes hm

theorem open_enter {g : FlowGraph} {s : Search} (h : s.Coherent g) {n : Node} (hs : n ∉ s.seen)
    {m : Node} : Open { s with seen := n :: s.seen } m ↔ m = n ∨ s.Open m := by
  simp only [Open, List.mem_cons]
  constructor
  · rintro ⟨rfl | hm, hf⟩
    · exact Or.inl rfl
    · exact Or.inr ⟨hm, hf⟩
  · rintro (rfl | ⟨hm, hf⟩)
    · exact ⟨Or.inl rfl, fun hf => hs (h.seen_of_finished hf)⟩
    · exact ⟨Or.inr hm, hf⟩

/-- A search may leave an open node. -/
theorem Coherent.leave {g : FlowGraph} {s : Search} (h : s.Coherent g) {n : Node}
    (hn : s.Open n) : Coherent g { s with finished := n :: s.finished } where
  nodup_seen := h.nodup_seen
  nodup_finished := List.nodup_cons.mpr ⟨hn.2, h.nodup_finished⟩
  seen_of_finished := by
    intro m hm
    rcases List.mem_cons.mp hm with rfl | hm
    · exact hn.1
    · exact h.seen_of_finished hm
  mem_nodes := h.mem_nodes

theorem open_leave {s : Search} {n m : Node} :
    Open { s with finished := n :: s.finished } m ↔ s.Open m ∧ m ≠ n := by
  simp only [Open, List.mem_cons, not_or]
  tauto

/-- What is left of a search that has gone on from `s`: nothing was unseen, and the nodes that
`keep` names are the open ones. -/
structure Extends (g : FlowGraph) (s t : Search) (keep : Node → Prop) : Prop where
  coherent : t.Coherent g
  length_le : s.seen.length ≤ t.seen.length
  open_iff : ∀ m, t.Open m ↔ keep m

end Search

open Search

/-- Searching from an open node closes it and leaves the other open nodes open, if enough levels
are left for the nodes that have not been seen. -/
def Closes (g : FlowGraph) (depth : Nat) : Prop :=
  ∀ (n : Node) (s : Search), s.Coherent g → s.Open n → g.size < depth + s.seen.length →
    Extends g s (g.explore depth n s) fun m => s.Open m ∧ m ≠ n

/-- Where that holds one level further down, going through a list of nodes and entering those that
have not been seen opens nothing for good. -/
theorem extends_foldl_explore {g : FlowGraph} {depth : Nat} (hcloses : Closes g depth) {s : Search}
    (hdepth : g.size < depth + 1 + s.seen.length) {vs : List Node} (hvs : ∀ v ∈ vs, v ∈ g.nodes)
    {t : Search} (ht : Extends g s t s.Open) :
    Extends g s (vs.foldl (fun t v =>
      if v ∈ t.seen then t else g.explore depth v { t with seen := v :: t.seen }) t) s.Open := by
  induction vs generalizing t with
  | nil => exact ht
  | cons v vs ih =>
    rw [List.foldl_cons]
    refine ih (fun w hw => hvs w (List.mem_cons_of_mem _ hw)) ?_
    by_cases hv : v ∈ t.seen
    · rw [if_pos hv]
      exact ht
    · rw [if_neg hv]
      have hc := ht.coherent.enter (hvs v List.mem_cons_self) hv
      have ho := open_enter ht.coherent hv (m := v)
      have hlen := ht.length_le
      -- entering `v` makes up for the level that is gone
      have hrec := hcloses v { t with seen := v :: t.seen } hc (ho.mpr (Or.inl rfl))
        (by simp only [List.length_cons]; omega)
      refine ⟨hrec.coherent, ?_, fun m => ?_⟩
      · have hgrown := hrec.length_le
        simp only [List.length_cons] at hgrown
        omega
      · rw [hrec.open_iff, open_enter ht.coherent hv, ← ht.open_iff]
        constructor
        · rintro ⟨rfl | hm, hne⟩
          · exact absurd rfl hne
          · exact hm
        · intro hm
          exact ⟨Or.inr hm, fun h => hv (h ▸ hm.1)⟩

theorem closes_of_wellFormed {g : FlowGraph} (hg : g.WellFormed) (depth : Nat) :
    Closes g depth := by
  induction depth with
  | zero =>
    intro n s hs hn hdepth
    -- more nodes would have been seen than there are
    have hle := hs.length_seen_le
    omega
  | succ depth ih =>
    intro n s hs hn hdepth
    have hsuccs : ∀ v ∈ g.succs n, v ∈ g.nodes := fun v hv => hg.target_mem (mem_succs_iff.mp hv)
    have ht := extends_foldl_explore ih hdepth hsuccs ⟨hs, Nat.le_refl _, fun _ => Iff.rfl⟩
    have hopen := (ht.open_iff n).mpr hn
    refine ⟨ht.coherent.leave hopen, ht.length_le, fun m => ?_⟩
    rw [explore, open_leave, ht.open_iff]

/-! ## The search from the entry -/

/-- What is known when the search from the entry has come to its end. -/
def searched (g : FlowGraph) : Search :=
  g.explore g.size .entry { seen := [.entry], finished := [] }

theorem reversePostorder_eq (g : FlowGraph) :
    g.reversePostorder = g.searched.finished ++ g.nodes.filter (· ∉ g.searched.seen) :=
  rfl

theorem open_entered {m : Node} : Open { seen := [.entry], finished := [] } m ↔ m = .entry := by
  simp [Open]

section Entry

variable {g : FlowGraph} (hg : g.WellFormed)

include hg

theorem coherent_entered : Coherent g { seen := [.entry], finished := [] } :=
  ⟨List.nodup_singleton _, List.nodup_nil, nofun, fun hn => List.mem_singleton.mp hn ▸ hg.entry_mem⟩

/-- The search leaves every node that it enters. -/
theorem extends_searched :
    Extends g { seen := [.entry], finished := [] } g.searched fun _ => False := by
  have h := closes_of_wellFormed hg g.size .entry _ (coherent_entered hg) (open_entered.mpr rfl)
    (by simp)
  refine ⟨h.coherent, h.length_le, fun m => ?_⟩
  rw [searched, h.open_iff, open_entered]
  simp

theorem mem_finished_iff_mem_seen {n : Node} : n ∈ g.searched.finished ↔ n ∈ g.searched.seen := by
  have h := extends_searched hg
  refine ⟨h.coherent.seen_of_finished, fun hn => ?_⟩
  by_contra hf
  exact (h.open_iff n).mp ⟨hn, hf⟩

theorem perm_searched : g.searched.seen.Perm g.searched.finished := by
  have h := (extends_searched hg).coherent
  rw [List.perm_ext_iff_of_nodup h.nodup_seen h.nodup_finished]
  exact fun n => (mem_finished_iff_mem_seen hg).symm

/-- Reverse postorder is an arrangement of the nodes. -/
theorem reversePostorder_perm : g.reversePostorder.Perm g.nodes := by
  have h := (extends_searched hg).coherent
  have hnodup : g.reversePostorder.Nodup := by
    refine List.Nodup.append h.nodup_finished (hg.nodup_nodes.filter _) ?_
    intro m hm hrest
    have hns := (List.mem_filter.mp hrest).2
    simp only [decide_eq_true_eq] at hns
    exact hns (h.seen_of_finished hm)
  rw [List.perm_ext_iff_of_nodup hnodup hg.nodup_nodes]
  intro m
  rw [reversePostorder_eq, List.mem_append, List.mem_filter, decide_eq_true_eq,
    mem_finished_iff_mem_seen hg]
  constructor
  · rintro (hm | hm)
    · exact h.mem_nodes hm
    · exact hm.1
  · intro hm
    by_cases hs : m ∈ g.searched.seen
    · exact Or.inl hs
    · exact Or.inr ⟨hm, hs⟩

end Entry

end ConstantFlow.FlowGraph

import ConstantFlow.Proofs.FlowGraph.Cycle
import ConstantFlow.Proofs.FlowGraph.DepthFirst
import Mathlib.Logic.Function.Iterate

/-!
# Depth-first search in rounds

The search as a loop: a stack holds the nodes on the way to the current one, each with the
successors that are still to be looked at. A round passes over successors of the current node that
have been seen and enters the next one, or leaves the node if there is none. Every round enters or
leaves a node, so the loop ends, and it ends with what the recursive search finds. Reverse postorder
thereby comes in full: every node once, the entry first, the nodes that can be reached before the
others, and each of them before its successors as far as cycles allow.

Main results:

* `Walk.takes_foldl_explore`: the loop goes through the successors of a node as the recursion does
* `Walk.takes_searched`: it ends with what the recursive search finds
* `reversePostorder_is_depth_first_order`: what reverse postorder is, on every graph made by
  additions
-/

namespace ConstantFlow.FlowGraph

open Search

/-- A search with the nodes on the way to the current one, the current one first. -/
structure Walk extends Search where
  /-- The nodes that have been entered and not left, each with the successors not looked at yet. -/
  stack : List (Node × List Node)

namespace Walk

/-- The entry has been entered. -/
def start (g : FlowGraph) : Walk where
  seen := [.entry]
  finished := []
  stack := [(.entry, g.succs .entry)]

/-- Enters the first successor of the current node that has not been seen, or leaves the node if it
has no such successor. -/
def round (g : FlowGraph) (w : Walk) : Walk :=
  match w.stack with
  | [] => w
  | (n, vs) :: rest =>
    match vs.dropWhile (· ∈ w.seen) with
    | [] => { w with finished := n :: w.finished, stack := rest }
    | v :: vs => { w with seen := v :: w.seen, stack := (v, g.succs v) :: (n, vs) :: rest }

variable {g : FlowGraph} {s : Search} {n v : Node} {vs : List Node} {rest : List (Node × List Node)}

theorem round_leave :
    round g ⟨s, (n, []) :: rest⟩ = ⟨{ s with finished := n :: s.finished }, rest⟩ :=
  rfl

/-- A successor that has been seen makes no difference. -/
theorem round_of_mem (hv : v ∈ s.seen) :
    round g ⟨s, (n, v :: vs) :: rest⟩ = round g ⟨s, (n, vs) :: rest⟩ := by
  simp only [round, List.dropWhile_cons, hv, decide_true, if_true]

theorem round_of_not_mem (hv : v ∉ s.seen) :
    round g ⟨s, (n, v :: vs) :: rest⟩ =
      ⟨{ s with seen := v :: s.seen }, (v, g.succs v) :: (n, vs) :: rest⟩ := by
  simp only [round, List.dropWhile_cons, hv, decide_false, Bool.false_eq_true, if_false]

/-! ## The loop and the recursion -/

/-- How often a node has been entered or left. -/
def moves (s : Search) : Nat :=
  s.seen.length + s.finished.length

/-- Some rounds, at least one, take the loop from the first state to the second, and each of them
enters or leaves a node. -/
def Takes (g : FlowGraph) (w w' : Walk) : Prop :=
  ∃ k, (round g)^[k + 1] w = w' ∧ moves w.toSearch + (k + 1) = moves w'.toSearch

theorem Takes.trans {w w' w'' : Walk} (h : Takes g w w') (h' : Takes g w' w'') : Takes g w w'' := by
  obtain ⟨j, hj, hmoves⟩ := h
  obtain ⟨k, hk, hmoves'⟩ := h'
  refine ⟨k + 1 + j, ?_, by omega⟩
  rw [Nat.add_assoc, Function.iterate_add_apply, hj, hk]

theorem takes_round {w w' : Walk} (h : round g w = w')
    (hmoves : moves w'.toSearch = moves w.toSearch + 1) : Takes g w w' :=
  ⟨0, h, hmoves.symm⟩

/-- Where a round does the same, the loop goes on in the same way. -/
theorem Takes.of_round_eq {w w' w'' : Walk} (h : Takes g w w'') (hround : round g w' = round g w)
    (hsame : w'.toSearch = w.toSearch) : Takes g w' w'' := by
  obtain ⟨k, hk, hmoves⟩ := h
  refine ⟨k, ?_, hsame ▸ hmoves⟩
  rw [Function.iterate_succ_apply, hround, ← Function.iterate_succ_apply, hk]

/-- The loop searches from a node on top of the stack as the recursion does, if enough levels are
left for the nodes that have not been seen. -/
def Unrolls (g : FlowGraph) (depth : Nat) : Prop :=
  ∀ (n : Node) (s : Search) (rest : List (Node × List Node)), s.Coherent g → s.Open n →
    g.size < depth + s.seen.length →
      Takes g ⟨s, (n, g.succs n) :: rest⟩ ⟨g.explore depth n s, rest⟩

/-- Where that holds one level further down, the loop goes through the successors of a node, and
leaves it. -/
theorem takes_foldl_explore (hg : g.WellFormed) {depth : Nat} (hunrolls : Unrolls g depth)
    (hdepth : g.size < depth + 1 + s.seen.length) (hvs : ∀ v ∈ vs, v ∈ g.nodes) {t : Search}
    (ht : Extends g s t s.Open) :
    let r := vs.foldl (fun t v =>
      if v ∈ t.seen then t else g.explore depth v { t with seen := v :: t.seen }) t
    Takes g ⟨t, (n, vs) :: rest⟩ ⟨{ r with finished := n :: r.finished }, rest⟩ := by
  induction vs generalizing t with
  | nil =>
    refine takes_round round_leave ?_
    simp only [moves, List.length_cons, List.foldl_nil]
    omega
  | cons v vs ih =>
    have hv : v ∈ g.nodes := hvs v List.mem_cons_self
    have hnext : Extends g s _ s.Open :=
      extends_foldl_explore (closes_of_wellFormed hg depth) hdepth
        (fun w (hw : w ∈ [v]) => List.mem_singleton.mp hw ▸ hv) ht
    have hlater := ih (fun w hw => hvs w (List.mem_cons_of_mem _ hw)) hnext
    rw [List.foldl_cons, List.foldl_nil] at hlater
    rw [List.foldl_cons]
    by_cases hseen : v ∈ t.seen
    · rw [if_pos hseen] at hlater ⊢
      exact hlater.of_round_eq (round_of_mem hseen) rfl
    · rw [if_neg hseen] at hlater ⊢
      have hlen := ht.length_le
      -- `v` comes on top of the stack, is searched from, and gives way to the rest of the list
      have henter : Takes g ⟨t, (n, v :: vs) :: rest⟩
          ⟨{ t with seen := v :: t.seen }, (v, g.succs v) :: (n, vs) :: rest⟩ := by
        refine takes_round (round_of_not_mem hseen) ?_
        simp only [moves, List.length_cons]
        omega
      have hinner := hunrolls v { t with seen := v :: t.seen } ((n, vs) :: rest)
        (ht.coherent.enter hv hseen) ((open_enter ht.coherent hseen).mpr (Or.inl rfl))
        (by simp only [List.length_cons]; omega)
      exact (henter.trans hinner).trans hlater

theorem unrolls_of_wellFormed (hg : g.WellFormed) (depth : Nat) : Unrolls g depth := by
  induction depth with
  | zero =>
    intro n s rest hs hn hdepth
    -- all nodes would have been seen, and one more
    have hle := hs.length_seen_le
    omega
  | succ depth ih =>
    intro n s rest hs hn hdepth
    have hsuccs : ∀ v ∈ g.succs n, v ∈ g.nodes := fun v hv => hg.target_mem (mem_succs_iff.mp hv)
    exact takes_foldl_explore hg ih hdepth hsuccs ⟨hs, Nat.le_refl _, fun _ => Iff.rfl⟩

/-- The loop ends with what the search from the entry finds. -/
theorem takes_searched (hg : g.WellFormed) : Takes g (start g) ⟨g.searched, []⟩ :=
  unrolls_of_wellFormed hg g.size .entry _ [] (coherent_entered hg) (open_entered.mpr rfl) (by simp)

end Walk

/-! ## Reverse postorder -/

section Order

variable {g : FlowGraph} (hg : g.WellFormed)

include hg

/-- The search from the entry leaves the entry last. -/
theorem head?_reversePostorder : g.reversePostorder.head? = some .entry := by
  have hpos : 0 < g.size := List.length_pos_of_mem hg.entry_mem
  obtain ⟨depth, hdepth⟩ := Nat.exists_eq_add_one_of_ne_zero hpos.ne'
  rw [reversePostorder_eq, searched, hdepth, explore]
  rfl

/-- Nodes that cannot be reached follow the others, in the order of the graph. -/
theorem reversePostorder_split : ∃ reached others, g.reversePostorder = reached ++ others ∧
    (∀ n, n ∈ reached ↔ g.Reaches .entry n) ∧ others.Sublist g.nodes ∧
      ∀ n, n ∈ others ↔ n ∈ g.nodes ∧ ¬ g.Reaches .entry n := by
  refine ⟨g.searched.finished, g.nodes.filter (· ∉ g.searched.seen), rfl,
    fun n => mem_finished_iff_reaches hg, List.filter_sublist, fun n => ?_⟩
  rw [List.mem_filter, decide_eq_true_eq, mem_seen_iff_reaches hg]

/-- A node that can be reached and is on no cycle stands before all of its successors. -/
theorem sublist_reversePostorder_of_no_cycle {u v : Node} (he : (u, v) ∈ g.edges)
    (hu : g.Reaches .entry u) (hcycle : ∀ c, g.IsCycle c → u ∉ c) :
    [u, v].Sublist g.reversePostorder := by
  refine (sublist_reversePostorder_or_reaches hg he hu).resolve_right fun hback => ?_
  obtain ⟨us, hus⟩ := exists_isChain_of_transGen (Relation.TransGen.head' he hback)
  exact hcycle (u :: us) hus List.mem_cons_self

end Order

/-- An order of the nodes of a graph is that of a depth-first search from the entry. -/
structure DepthFirstOrder (g : FlowGraph) (order : List Node) : Prop where
  /-- The loop of the search ends, after two rounds less one for every node that it finds. The order
  is what it has left, the last node first, with the nodes that it has not seen behind. -/
  walk : ∃ rounds, let w := (Walk.round g)^[rounds] (Walk.start g)
    w.stack = [] ∧ rounds + 1 = 2 * w.finished.length ∧
      order = w.finished ++ g.nodes.filter (· ∉ w.seen)
  nodup : order.Nodup
  mem_iff : ∀ n, n ∈ order ↔ n ∈ g.nodes
  entry_first : order.head? = some .entry
  /-- The nodes that can be reached from the entry come first, and the others follow in the order of
  the graph. -/
  reached_first : ∃ reached others, order = reached ++ others ∧
    (∀ n, n ∈ reached ↔ g.Reaches .entry n) ∧ others.Sublist g.nodes ∧
      ∀ n, n ∈ others ↔ n ∈ g.nodes ∧ ¬ g.Reaches .entry n
  /-- A node that can be reached stands before each of its successors, unless control can get back
  from that successor. -/
  before : ∀ u v, (u, v) ∈ g.edges → g.Reaches .entry u → ¬ g.Reaches v u → [u, v].Sublist order
  /-- Where no cycle can be reached it stands before all of them. -/
  topological : (∀ c, g.IsCycle c → ∀ n ∈ c, ¬ g.Reaches .entry n) →
    ∀ u v, (u, v) ∈ g.edges → g.Reaches .entry u → [u, v].Sublist order

/-- Reverse postorder lists every node of a graph once, in the order of a depth-first search. -/
theorem reversePostorder_is_depth_first_order {g : FlowGraph} (hg : g.Built) :
    DepthFirstOrder g g.reversePostorder := by
  have hwf := hg.wellFormed
  have hperm := reversePostorder_perm hwf
  refine ⟨?_, hperm.nodup_iff.mpr hwf.nodup_nodes, fun n => hperm.mem_iff,
    head?_reversePostorder hwf, reversePostorder_split hwf, ?_, ?_⟩
  · obtain ⟨k, hk, hmoves⟩ := Walk.takes_searched hwf
    refine ⟨k + 1, ?_⟩
    rw [hk]
    -- the entry has been entered before the first round, and every node found has been left
    have hrounds : k + 1 + 1 = 2 * g.searched.finished.length := by
      have hlen := (perm_searched hwf).length_eq
      simp only [Walk.moves, Walk.start, List.length_cons, List.length_nil] at hmoves
      omega
    exact ⟨rfl, hrounds, rfl⟩
  · intro u v he hu hback
    exact (sublist_reversePostorder_or_reaches hwf he hu).resolve_right hback
  · intro hcycle u v he hu
    exact sublist_reversePostorder_of_no_cycle hwf he hu fun c hc hmem => hcycle c hc u hmem hu

/-! A loop with a self loop in it, and a node that leads into it and that nothing leads to. -/

namespace Looping

def test : Node := .stmt 0 0 .jump

def body : Node := .stmt 1 1 .nop

def orphan : Node := .stmt 2 2 .nop

def graph : FlowGraph :=
  ((((((empty "loop" []).addEdge .entry test).addEdge orphan body).addEdge test body).addEdge body
    body).addEdge body test).addEdge test .exit

theorem built : graph.Built :=
  .addEdge _ _ <| .addEdge _ _ <| .addEdge _ _ <| .addEdge _ _ <| .addEdge _ _ <| .addEdge _ _ <|
    .empty "loop" []

/-- The exit has no successor. -/
theorem not_reaches_test : ¬ graph.Reaches .exit test := by
  intro h
  rcases Relation.ReflTransGen.cases_head h with h | ⟨v, he, _⟩
  · exact absurd h (by decide)
  · have hnone : ∀ e ∈ graph.edges, e.1 ≠ .exit := by decide
    exact hnone _ he rfl

end Looping

open Looping in
theorem reversePostorder_is_depth_first_order_looping :
    graph.Built ∧ graph.reversePostorder = [.entry, test, .exit, body, orphan] ∧
      graph.reversePostorder.Nodup ∧ [test, .exit].Sublist graph.reversePostorder := by
  have horder := reversePostorder_is_depth_first_order built
  refine ⟨built, by decide, horder.nodup, ?_⟩
  exact horder.before test .exit (by decide) (.single (by decide)) not_reaches_test

end ConstantFlow.FlowGraph

import ConstantFlow.Proofs.Evaluation
import ConstantFlow.Proofs.Loading.Graph
import ConstantFlow.Proofs.Propagation.Fixpoint
import ConstantFlow.Proofs.Semantics.Execution

/-!
# Soundness of constant propagation

A fact describes a store if every word that the store holds is one that the fact allows for: the
constant itself, or a value that is not a constant. Abstract evaluation and the effect of
statements keep to that, so by induction along the path of an execution the facts of a finished run
describe every store that can arrive.

Main results:

* `Expr.eval_sound`: the value of an expression allows for every word that it denotes
* `effect_sound`: the effect of a statement describes the stores that it leaves
* `Solution.sound`: a solution describes every store that can arrive
* `solve_sound_for_execution`: so does every returned table
-/

namespace ConstantFlow

/-- The fact allows for every word that the store holds. -/
def Fact.Describes (f : Fact) (s : Store) : Prop :=
  ∀ (x : TrackedVar) (w : Int32), s x = some w → .const w ≤ f.get x.1

theorem Fact.Describes.mono {f g : Fact} {s : Store} (h : f.Describes s) (hle : f ≤ g) :
    g.Describes s :=
  fun x w hw => le_trans (h x w hw) (hle x.1)

theorem Value.const_le_iff {w : Int32} {v : Value} :
    .const w ≤ v ↔ v = .const w ∨ v = .nac := by
  rw [Value.le_def]
  constructor
  · rintro (h | h | h)
    · cases h
    · exact Or.inr h
    · exact Or.inl h.symm
  · rintro (h | h)
    · exact Or.inr (Or.inr h.symm)
    · exact Or.inr (Or.inl h)

/-! ## Expressions -/

/-- Two constants give the constant that the machine computes. -/
theorem BinOp.onValues_const {op : BinOp} {a b w : Int32} (h : op.onWords a b = some w) :
    op.onValues (.const a) (.const b) = .const w := by
  have hok : op.fold a.toInt b.toInt = .ok w := by rw [fold_toInt, h]
  simp [onValues, not_trap_of_onWords h, hok]

/-- An operation on values allows for what the machine computes on words that they allow for. -/
theorem BinOp.onValues_sound {op : BinOp} {a b w : Int32} {u v : Value} (ha : .const a ≤ u)
    (hb : .const b ≤ v) (h : op.onWords a b = some w) : .const w ≤ op.onValues u v := by
  -- an operand that is no constant settles it, unless the divisor is known to be zero: then the
  -- machine has computed nothing
  rcases Value.const_le_iff.mp hb with rfl | rfl
  · rcases Value.const_le_iff.mp ha with rfl | rfl
    · rw [onValues_const h]
    · rw [onValues_nac_left (by simpa using not_trap_of_onWords h)]
      exact Value.le_nac _
  · rw [onValues_nac_right]
    exact Value.le_nac _

/-- The value of an expression allows for every word that the expression may denote. -/
theorem Expr.eval_sound {f : Fact} {s : Store} (h : f.Describes s) {e : Expr} {w : Int32}
    (hd : Denotes s e w) : .const w ≤ e.eval f := by
  induction hd with
  | @var x w hw =>
    have hx := Store.tracked_of_read hw
    exact h ⟨x, hx⟩ w ((s.read_tracked ⟨x, hx⟩).symm.trans hw)
  | lit n => exact (Value.ofInt_eq n).ge
  | binary _ _ hop ihl ihr => exact BinOp.onValues_sound ihl ihr hop
  | neg e w => exact Value.le_nac _
  | call m args w => exact Value.le_nac _
  | field x f w => exact Value.le_nac _

namespace Propagation

open Worklist

/-! ## Statements -/

/-- The effect of a statement describes the stores that it may leave. -/
theorem effect_sound {f : Fact} {c : Stmt} {s t : Store} (h : f.Describes s)
    (hx : Executes c s t) : (effect c f).Describes t := by
  cases hx with
  | @assign s x e w hd =>
    have hdef := Stmt.definition?_assign x e
    intro y v hv
    simp only [Store.write] at hv
    by_cases hy : y = x
    · -- the new word is one that the right-hand side denotes
      rw [if_pos hy, Option.some.injEq] at hv
      rw [hy, get_effect_self hdef, ← hv]
      exact e.eval_sound h hd
    · rw [if_neg hy] at hv
      rw [effect_of_definition hdef, Fact.get_update, if_neg fun hxy => hy (Subtype.ext hxy)]
      exact h y v hv
  | skip s hc =>
    rw [effect_of_none (Stmt.definition?_eq_none hc)]
    exact h

theorem boundary_sound {g : FlowGraph} {s : Store} (h : s.Initial g) :
    (boundary g).Describes s := by
  intro x w hw
  have hmem : x.1 ∈ g.params := (h x).mp (by rw [hw]; rfl)
  rw [get_boundary, if_pos ⟨hmem, x.2⟩]
  exact Value.le_nac _

/-! ## Paths -/

/-- A solution of the flow equations describes the stores that arrive anywhere and those that
leave, if control never comes back to the entry. -/
theorem Solution.sound {g : FlowGraph} {input output : Node → Fact}
    (hsol : Solution g input output) (hg : g.WellFormed)
    (hentry : ∀ u, (u, .entry) ∉ g.edges) {n : Node} {s : Store} (h : Arrives g n s) :
    (n ≠ .entry → (input n).Describes s) ∧
      ∀ t, Executes n.code s t → n ∈ g.nodes → (output n).Describes t := by
  -- by induction on the path; a node lets out what it should once the right things arrive
  have hleave : ∀ {n s}, n ≠ .entry → (input n).Describes s →
      ∀ t, Executes n.code s t → n ∈ g.nodes → (output n).Describes t := by
    intro n s hn hin t hx hmem y w hw
    rw [hsol.effect_eq n hmem hn]
    exact effect_sound hin hx y w hw
  induction h with
  | enter hs =>
    refine ⟨fun h => absurd rfl h, fun t hx _ => ?_⟩
    rw [hx.eq_of_entry, hsol.entry_output]
    exact boundary_sound hs
  | @follow u v s t _ hx hedge ih =>
    have hv : v ≠ .entry := fun h => hentry u (h ▸ hedge)
    have hout := ih.2 t hx (hg.source_mem hedge)
    have hin := hout.mono (hsol.passed_on u v hedge hv)
    exact ⟨fun _ => hin, hleave hv hin⟩

/-- Control enters a loaded procedure once. Whenever it does so and a table is returned, a word
that a tracked variable holds on arrival at a node, on whatever path, is the constant that the
table has there for the variable, unless it has no constant; and the same goes for the words that
are held when control leaves the node. -/
theorem solve_sound_for_execution :
    (∀ form g, Loading.procedure form = .ok g → g.Built ∧ ∀ u, (u, .entry) ∉ g.edges) ∧
      ∀ g : FlowGraph, g.Built → (∀ u, (u, .entry) ∉ g.edges) →
        ∀ bound table, solve g bound = .ok table →
          ∀ n s, n ≠ .entry → Arrives g n s → ∃ facts, factsAt table n = .ok facts ∧
            (∀ (x : TrackedVar) w, s x = some w →
              facts.input.get x.1 = .const w ∨ facts.input.get x.1 = .nac) ∧
            ∀ t, Executes n.code s t → ∀ (x : TrackedVar) w, t x = some w →
              facts.output.get x.1 = .const w ∨ facts.output.get x.1 = .nac := by
  refine ⟨fun form g h => Loading.enteredOnce_of_procedure h, ?_⟩
  intro g hg hentry bound table h n s hn harrives
  have hwf := hg.wellFormed
  rcases factsAt_of_solve hwf h with ⟨st, hr, hq, _, hfacts⟩
  -- a path that ends elsewhere than at the entry ends with an edge
  have hmem : n ∈ g.nodes := by
    cases harrives with
    | enter => exact absurd rfl hn
    | follow _ _ hedge => exact hwf.target_mem hedge
  have hsound := (solution_of_settled hwf hr hq).sound hwf hentry harrives
  refine ⟨_, hfacts n hmem, ?_, ?_⟩
  · intro x w hw
    exact Value.const_le_iff.mp (hsound.1 hn x w hw)
  · intro t ht x w hw
    exact Value.const_le_iff.mp (hsound.2 t ht hmem x w hw)

/-! A loop that adds its parameter to `x` each time round. -/

namespace Counting

def x : TrackedVar := ⟨{ name := "x", type := .primitive .int }, rfl⟩
def p : TrackedVar := ⟨{ name := "p", type := .primitive .int }, rfl⟩

def init : Node := .stmt 0 0 (.assign (.var x.1) (.lit 1))
def test : Node := .stmt 1 1 (.branch (.var x.1))
def bump : Node := .stmt 2 2 (.assign (.var x.1) (.binary .add (.var x.1) (.var p.1)))

def graph : FlowGraph :=
  [(.entry, init), (init, test), (test, bump), (bump, test), (test, .exit)].foldl
    (fun g e => g.addEdge e.1 e.2) (.empty "count" [p.1])

theorem built : graph.Built :=
  (FlowGraph.Built.empty "count" [p.1]).foldl_addEdge _

theorem returns : ∃ table, solve graph 20 = .ok table :=
  exists_of_isOk (by decide)

theorem no_edge_to_entry (u : Node) : (u, .entry) ∉ graph.edges := by
  have hends : ∀ e ∈ graph.edges, e.2 ≠ .entry := by decide
  exact fun he => hends _ he rfl

/-- The store of a call with the argument 5. -/
def call : Store := fun y => if y = p then some 5 else none

theorem arrives_test_twice : Arrives graph test ((call.write x 1).write x 6) := by
  have hcall : Arrives graph .entry call := by
    have hparams : graph.params = [p.1] := by decide
    refine .enter fun y => ?_
    rw [hparams, List.mem_singleton, call]
    by_cases hy : y = p
    · simp [hy]
    · simp [hy, Subtype.ext_iff.not.mp hy]
  have hinit : Arrives graph init call := .follow hcall (.skip _ (by nofun)) (by decide)
  have htest : Arrives graph test (call.write x 1) :=
    .follow hinit (.assign (.lit 1)) (by decide)
  have hbump : Arrives graph bump (call.write x 1) :=
    .follow htest (.skip _ (by nofun)) (by decide)
  have hsum : Denotes (call.write x 1) (.binary .add (.var x.1) (.var p.1)) 6 :=
    .binary (a := 1) (b := 5) (.var rfl) (.var rfl) rfl
  exact .follow hbump (.assign hsum) (by decide)

end Counting

open Counting in
theorem solve_sound_for_execution_counting :
    ∃ table facts, solve graph 20 = .ok table ∧ factsAt table test = .ok facts ∧
      Arrives graph test ((call.write x 1).write x 6) ∧
      (facts.input.get x.1 = .const 6 ∨ facts.input.get x.1 = .nac) := by
  rcases returns with ⟨table, hrun⟩
  rcases solve_sound_for_execution.2 graph built no_edge_to_entry 20 table hrun test _ (by decide)
    arrives_test_twice with ⟨facts, hfacts, hin, _⟩
  exact ⟨table, facts, hrun, hfacts, arrives_test_twice, hin x 6 rfl⟩

end Propagation

end ConstantFlow

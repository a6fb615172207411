import ConstantFlow.Proofs.Evaluation
import ConstantFlow.Proofs.Propagation.Fixpoint

/-!
# Nothing goes wrong but the bound

Two steps of an evaluation can go wrong: asking a value for its constant when it has none, and
folding a division by zero. The checked evaluation makes these steps where it needs their results
and passes every error on. It never meets one: the values are sorted out before a constant is asked
for, and a divisor is looked at after it has been wrapped. Since no look-up of the solver fails
either, a run with a positive bound returns a table of all nodes or runs out of visits.

Main results:

* `Expr.evalChecked_eq`: no evaluation goes wrong
* `transferChecked_eq`: so no transfer does
* `run_fails_only_at_bound`: a run returns a table or runs out of visits
-/

namespace ConstantFlow

/-! ## Checked evaluation -/

/-- What can go wrong in an evaluation. -/
inductive EvalError where
  | access (e : Value.AccessError)
  | fold (e : BinOp.FoldError)
deriving DecidableEq, Repr

/-- The constant of a value, which must have one. -/
def Value.constantChecked (v : Value) : Except EvalError Int32 :=
  v.constant.mapError .access

/-- The fold of two words, which must have a result. -/
def BinOp.foldChecked (op : BinOp) (c d : Int32) : Except EvalError Int32 :=
  (op.fold c.toInt d.toInt).mapError .fold

/-- Whether the operation divides by a divisor that is known to be zero. -/
def BinOp.zeroDivisorChecked (op : BinOp) (b : Value) : Except EvalError Bool := do
  if op.divides && b.isConst then
    let d ← b.constantChecked
    return decide (d = 0)
  else return false

/-- The value of an operation on two values, one check after the other. -/
def BinOp.onValuesChecked (op : BinOp) (a b : Value) : Except EvalError Value := do
  if ← op.zeroDivisorChecked b then return .undefined
  else if a.isNac || b.isNac then return .nac
  else if a.isUndef || b.isUndef then return .undefined
  else
    let c ← a.constantChecked
    let d ← b.constantChecked
    let w ← op.foldChecked c d
    return .const w

/-- The value of an expression, operands from left to right. -/
def Expr.evalChecked (f : Fact) : Expr → Except EvalError Value
  | .var x => .ok (f.get x)
  | .lit n => .ok (.ofInt n)
  | .binary op l r => do
    let a ← l.evalChecked f
    let b ← r.evalChecked f
    op.onValuesChecked a b
  | .neg _ => .ok .nac
  | .call _ _ => .ok .nac
  | .field _ _ => .ok .nac

/-! ## It meets no error -/

theorem BinOp.zeroDivisorChecked_eq (op : BinOp) (b : Value) :
    op.zeroDivisorChecked b = .ok (decide (op.divides = true ∧ b = .const 0)) := by
  unfold zeroDivisorChecked
  cases hop : op.divides with
  | false => simp [pure, Except.pure]
  | true =>
    cases b with
    | undefined => rfl
    | nac => rfl
    | const d => simp [Value.isConst, Value.constantChecked, Value.constant, Except.mapError, bind,
        Except.bind, pure, Except.pure]

/-- Folding two words has a result, unless it divides by zero. -/
theorem BinOp.exists_fold {op : BinOp} {c d : Int32} (h : ¬ (op.divides = true ∧ d = 0)) :
    ∃ w, op.fold c.toInt d.toInt = .ok w ∧ op.foldChecked c d = .ok w := by
  cases hfold : op.fold c.toInt d.toInt with
  | ok w =>
    refine ⟨w, rfl, ?_⟩
    rw [foldChecked, hfold]
    rfl
  | error e =>
    obtain ⟨hop, hzero⟩ := (fold_eq_error_iff op _ _ e).mp hfold
    exact absurd ⟨hop, Int32.toInt_inj.mp hzero⟩ h

theorem BinOp.onValuesChecked_eq (op : BinOp) (a b : Value) :
    op.onValuesChecked a b = .ok (op.onValues a b) := by
  have hcheck := op.zeroDivisorChecked_eq b
  unfold onValuesChecked onValues
  by_cases hzero : op.divides = true ∧ b = .const 0
  · rw [hcheck, decide_eq_true hzero, if_pos hzero]
    rfl
  · rw [hcheck, decide_eq_false hzero, if_neg hzero]
    cases a with
    | nac => rfl
    | undefined => cases b <;> rfl
    | const c =>
      cases b with
      | nac => rfl
      | undefined => rfl
      | const d =>
        -- only here constants are asked for, and the divisor has been looked at
        have hd : ¬ (op.divides = true ∧ d = 0) := fun h => hzero ⟨h.1, congrArg _ h.2⟩
        obtain ⟨w, hfold, hchecked⟩ := exists_fold (c := c) hd
        simp only [hfold]
        show (op.foldChecked c d >>= fun w => pure (Value.const w)) = _
        rw [hchecked]
        rfl

/-- Checked evaluation gives every expression its value. -/
theorem Expr.evalChecked_eq (f : Fact) (e : Expr) : e.evalChecked f = .ok (e.eval f) := by
  fun_induction Expr.eval f e with
  | case3 op l r ihl ihr =>
    rw [evalChecked, ihl, ihr]
    exact op.onValuesChecked_eq (l.eval f) (r.eval f)
  | case1 | case2 | case4 | case5 | case6 => rfl

namespace Propagation

open Worklist

/-- The fact that leaves a statement, with the assigned value computed by checked evaluation. -/
def transferChecked (s : Stmt) (input output : Fact) : Except EvalError (Fact × Bool) :=
  let (out, changed) := output.overwrite input
  match s.definition? with
  | some (x, e) => do
    let value ← e.evalChecked input
    return (((out.erase x).update x value).1, decide (out.get x ≠ value) || changed)
  | none => .ok (out, changed)

theorem transferChecked_eq (s : Stmt) (input output : Fact) :
    transferChecked s input output = .ok (transfer s input output) := by
  unfold transferChecked transfer rebind
  cases hdef : s.definition? with
  | none => rfl
  | some d =>
    simp only [Expr.evalChecked_eq]
    rfl

/-! ## Runs -/

/-- The order of the first visits can be found: the successors of every node in it are known. -/
theorem exists_succsAt {g : FlowGraph} (hg : g.WellFormed) {n : Node}
    (hn : n ∈ g.reversePostorder) : ∃ succs, succsAt g n = .ok succs := by
  have hmem := (FlowGraph.reversePostorder_perm hg).mem_iff.mp hn
  exact ⟨g.succs n, by simp [succsAt, FlowGraph.succs?, hmem]⟩

/-- With a positive bound a run starts. The search for its order, the look-ups of its visits and the
checked evaluations meet no error. It returns a table that lists all nodes in the order of the
graph, each with both of its facts, or the bound is reached while nodes wait. -/
theorem run_fails_only_at_bound {g : FlowGraph} (hg : g.Built) {bound : Int} (hb : 0 < bound) :
    ∃ r, run g bound = .ok r ∧
      (∀ n ∈ g.reversePostorder, ∃ succs, succsAt g n = .ok succs) ∧
      (∀ v ∈ r.visits,
        transferChecked v.node.code v.input v.before = .ok (v.output, v.changed)) ∧
      ((∃ table, r.outcome = .ok table ∧ table.map Prod.fst = g.nodes ∧
          ∀ n ∈ g.nodes, ∃ facts, factsAt table n = .ok facts) ∨
        ∃ pending, 0 < pending ∧ r.outcome = .error (.notConverged bound.toNat pending)) := by
  have hwf := hg.wellFormed
  have hr := reached_after (a := analysis) hwf bound.toNat
  have hs := hr.consistent hwf
  refine ⟨Worklist.solve analysis g bound.toNat, solveWithin_eq_ok_iff.mpr ⟨hb, rfl⟩, ?_, ?_, ?_⟩
  · intro n hn
    exact exists_succsAt hwf hn
  · intro v hv
    rw [visits_solve, List.mem_reverse] at hv
    have htransfer : transfer v.node.code v.input v.before = (v.output, v.changed) :=
      hr.transfer_eq hwf hv
    rw [transferChecked_eq, htransfer]
  · rw [outcome_solve hwf]
    by_cases hq : (after analysis g bound.toNat).queue = []
    · rw [if_pos hq]
      refine Or.inl ⟨_, rfl, hs.nodes_eq, fun n hn => ⟨_, hs.factsAt_eq analysis hn⟩⟩
    · rw [if_neg hq]
      exact Or.inr ⟨_, List.length_pos_of_ne_nil hq, rfl⟩

/-! Divisions by a literal that is zero once it has been wrapped, of a parameter, of a constant and
of something unknown. -/

namespace Wrapped

def p : Var := { name := "p", type := .primitive .int }
def y : Var := { name := "y", type := .primitive .int }
def z : Var := { name := "z", type := .primitive .int }

def quotient : Node := .stmt 0 0 (.assign (.var y) (.binary .div (.var p) (.lit 4294967296)))
def remainder : Node := .stmt 1 1 (.assign (.var z) (.binary .rem (.lit 7) (.lit 4294967296)))
def unknown : Node := .stmt 2 2 (.assign (.var y) (.binary .div (.var y) (.var z)))

def graph : FlowGraph :=
  [(.entry, quotient), (quotient, remainder), (remainder, unknown), (unknown, quotient),
    (unknown, .exit)].foldl (fun g e => g.addEdge e.1 e.2) (.empty "f" [p])

theorem built : graph.Built :=
  (FlowGraph.Built.empty "f" [p]).foldl_addEdge _

end Wrapped

open Wrapped in
theorem run_fails_only_at_bound_wrapped :
    ∃ r table, run graph 20 = .ok r ∧ r.outcome = .ok table ∧ table.map Prod.fst = graph.nodes ∧
      ∀ v ∈ r.visits,
        transferChecked v.node.code v.input v.before = .ok (v.output, v.changed) := by
  have hpos : (0 : Int) < 20 := by decide
  obtain ⟨r, hrun, _, hchecked, hend⟩ := run_fails_only_at_bound built hpos
  have hreturn : ∃ table, solve graph 20 = .ok table := exists_of_isOk (by decide)
  obtain ⟨table, hsolve⟩ := hreturn
  have hreturns : r.outcome = .ok table := by
    rw [← hsolve, solve, hrun]
    rfl
  rcases hend with ⟨table', htable, hnodes, _⟩ | ⟨pending, _, herror⟩
  · exact ⟨r, table', hrun, htable, hnodes, hchecked⟩
  · rw [herror] at hreturns
    cases hreturns

end Propagation

end ConstantFlow

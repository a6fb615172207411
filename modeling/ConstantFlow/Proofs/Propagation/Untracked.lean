import ConstantFlow.Loading.Procedure
import ConstantFlow.Proofs.Evaluation
import ConstantFlow.Proofs.Expression
import ConstantFlow.Proofs.Propagation.Cause

/-!
# Operands that are not tracked

A variable whose type does not fit a word may hold anything, but no fact lists it, so evaluation
finds it unknown. Where this makes a difference the expression is unknown although it is no
constant: it overlooks the variable. It makes none below an operand that is no constant anyway, nor
where a quotient with a divisor of zero gives the variable up.

Main results:

* `Expr.overlooksOrAgrees`: an expression overlooks a variable, or it is as if the variable were
  no constant
* `tracked_output`: no fact of a run lists a variable that is not tracked
* `untracked_operands_nac_unless_overlooked`: this for the values that are assigned in a run
* `untracked_operand_reported_constant`: a procedure where a variable is overlooked
-/

namespace ConstantFlow

namespace Expr

/-- An unknown operand that is not tracked decides the value of the expression. -/
def overlooks (f : Fact) : Expr → Bool
  | .var x => !x.tracked
  | .binary op l r =>
    (l.overlooks f || r.overlooks f) && !(l.eval f == .nac) && !(r.eval f == .nac) &&
      !(op.divides && r.eval f == .const 0)
  | .lit _ | .neg _ | .call _ _ | .field _ _ => false

end Expr

/-- The fact, extended by the variables of an expression that are not tracked: they may hold
anything. -/
def Fact.withUntracked (f : Fact) (e : Expr) : Fact :=
  f.withNac (e.vars.filter fun x => !x.tracked)

/-- Only variables that are tracked are listed. -/
def Fact.Tracked (f : Fact) : Prop :=
  ∀ x ∈ f.keys, x.tracked = true

theorem Fact.Tracked.get_eq {f : Fact} (hf : f.Tracked) {x : Var} (hx : x.tracked = false) :
    f.get x = .undefined :=
  get_of_not_mem_keys fun hkey => absurd (hf x hkey) (by simp [hx])

/-! ## What an expression overlooks -/

/-- The second fact says about some variables what the first does, and lets those that are not
tracked hold anything. -/
def Fact.Completes (f f' : Fact) (xs : List Var) : Prop :=
  ∀ x ∈ xs, f'.get x = if x.tracked then f.get x else .nac

theorem Fact.completes_withUntracked (f : Fact) (e : Expr) :
    f.Completes (f.withUntracked e) e.vars := by
  intro x hx
  rw [withUntracked, get_withNac]
  simp only [List.mem_filter, hx, true_and, Bool.not_eq_true']
  cases x.tracked <;> rfl

/-- What overlooking a variable means: the expression is unknown and should be no constant.
Otherwise its value is right. -/
def Expr.OverlooksOrAgrees (f f' : Fact) (e : Expr) : Prop :=
  e.overlooks f = true ∧ e.eval f = .undefined ∧ e.eval f' = .nac ∨
    e.overlooks f = false ∧ e.eval f' = e.eval f

/-- An operand on the right that is overlooked is so in the operation, unless the other operand is
no constant. -/
theorem Expr.OverlooksOrAgrees.of_right {f f' : Fact} {op : BinOp} {l r : Expr}
    (hr : r.overlooks f = true) (h : r.eval f = .undefined) (h' : r.eval f' = .nac) :
    OverlooksOrAgrees f f' (.binary op l r) := by
  unfold OverlooksOrAgrees
  simp only [overlooks, eval, hr, h, h', BinOp.onValues_nac_right]
  by_cases hl : l.eval f = .nac
  · have hvalue : op.onValues .nac .undefined = .nac := BinOp.onValues_nac_left (by simp)
    simp [hl, hvalue]
  · simp [hl, BinOp.onValues_undefined_right hl]

/-- On the left it is so unless the right operand is no constant, or a divisor of zero. -/
theorem Expr.OverlooksOrAgrees.of_left {f f' : Fact} {op : BinOp} {l r : Expr}
    (hl : l.overlooks f = true) (h : l.eval f = .undefined) (h' : l.eval f' = .nac)
    (hr : r.eval f' = r.eval f) : OverlooksOrAgrees f f' (.binary op l r) := by
  unfold OverlooksOrAgrees
  simp only [overlooks, eval, hl, h, h', hr]
  by_cases hnac : r.eval f = .nac
  · simp [hnac, BinOp.onValues_nac_right]
  · by_cases hzero : op.divides = true ∧ r.eval f = .const 0
    · simp [hzero.1, hzero.2, BinOp.onValues_zero_right hzero.1]
    · have hdivisor : (op.divides && r.eval f == .const 0) = false :=
        Bool.eq_false_iff.mpr (by simpa using hzero)
      simp [hnac, hdivisor, BinOp.onValues_nac_left hzero, BinOp.onValues_undefined_left hnac]

theorem Expr.overlooksOrAgrees {f f' : Fact} (hf : f.Tracked) {e : Expr}
    (h : f.Completes f' e.vars) : OverlooksOrAgrees f f' e := by
  fun_induction Expr.eval f e with
  | case1 x =>
    have hx := h x List.mem_cons_self
    unfold OverlooksOrAgrees
    cases htracked : x.tracked with
    | true => simp [overlooks, eval, hx, htracked]
    | false => simp [overlooks, eval, hx, htracked, hf.get_eq htracked]
  | case3 op l r ihl ihr =>
    rw [vars] at h
    have hl := ihl fun x hx => h x (List.mem_append_left _ hx)
    have hr := ihr fun x hx => h x (List.mem_append_right _ hx)
    rcases hr with ⟨hlooks, hvalue, hvalue'⟩ | ⟨hlooks, hr⟩
    · exact .of_right hlooks hvalue hvalue'
    · rcases hl with ⟨hlooks', hvalue, hvalue'⟩ | ⟨hlooks', hl⟩
      · exact .of_left hlooks' hvalue hvalue' hr
      · exact Or.inr ⟨by simp [overlooks, hlooks, hlooks'], by rw [eval, eval, hl, hr]⟩
  | case2 | case4 | case5 | case6 => exact Or.inr ⟨rfl, rfl⟩

namespace Propagation

open Worklist

variable {g : FlowGraph} {s : State Fact}

/-! ## Runs -/

theorem tracked_input (hg : g.WellFormed) (h : Reached analysis g s) (n : Node) :
    (s.input analysis n).Tracked := by
  intro x hx
  have hknown := get_ne_of_mem_keys ((invariant_of_reached hg h).lawful_input n) hx
  exact (justified_of_reached hg h n x hknown).1

theorem tracked_output (hg : g.WellFormed) (h : Reached analysis g s) (n : Node) :
    (s.output analysis n).Tracked := by
  intro x hx
  have hinv := invariant_of_reached hg h
  rcases hinv.source_of_output (get_ne_of_mem_keys (hinv.lawful_output n) hx) with
    hin | ⟨_, htracked⟩ | ⟨_, _, htracked⟩
  · exact (justified_of_reached hg h n x hin).1
  · exact htracked
  · exact htracked

/-- The facts of a run, after any number of visits, list tracked variables only. Under such a fact
an expression has the value that it has when all other variables may hold anything, exactly if it
overlooks none of them; if it does, it is unknown where it should be no constant. So in a returned
table a variable is unknown after an assignment that overlooks something, and has the right value
after any other. -/
theorem untracked_operands_nac_unless_overlooked {g : FlowGraph} (hg : g.Built) :
    (∀ k n facts, (n, facts) ∈ (after analysis g k).table →
      (∀ x ∈ facts.input.keys, x.tracked = true) ∧ ∀ x ∈ facts.output.keys, x.tracked = true) ∧
    (∀ f : Fact, (∀ x ∈ f.keys, x.tracked = true) → ∀ e : Expr,
      (e.eval f = e.eval (f.withUntracked e) ↔ e.overlooks f = false) ∧
      (e.overlooks f = true → e.eval f = .undefined ∧ e.eval (f.withUntracked e) = .nac)) ∧
    ∀ bound table, solve g bound = .ok table → ∀ n facts, (n, facts) ∈ table → n ≠ .entry →
      ∀ x e, n.code.definition? = some (x, e) →
        facts.output.get x =
          if e.overlooks facts.input then .undefined
          else e.eval (facts.input.withUntracked e) := by
  have hwf := hg.wellFormed
  refine ⟨?_, ?_, ?_⟩
  · intro k n facts hrow
    have hr := reached_after (a := analysis) hwf k
    obtain rfl := eq_of_mem_table hwf (hr.consistent hwf) hrow
    exact ⟨tracked_input hwf hr n, tracked_output hwf hr n⟩
  · intro f hf e
    rcases Expr.overlooksOrAgrees hf (f.completes_withUntracked e) with
      ⟨hlooks, h, h'⟩ | ⟨hlooks, h⟩
    · simp [hlooks, h, h']
    · simp [hlooks, h]
  · intro bound table hsolve n facts hrow hne x e hdef
    obtain ⟨s, hr, hq, hn, rfl⟩ := row_of_solve hwf hsolve hrow
    rw [(solution_of_settled hwf hr hq).effect_eq n hn hne, get_effect_self hdef]
    rcases Expr.overlooksOrAgrees (tracked_input hwf hr n) (Fact.completes_withUntracked _ e) with
      ⟨hlooks, h, _⟩ | ⟨hlooks, h⟩
    · rw [if_pos hlooks, h]
    · simp [hlooks, h]

/-! One of two branches gives a variable a constant, the other a sum with a parameter that is not
tracked. -/

namespace Overlooking

def c : Var := { name := "c", type := .primitive .int }
def l : Var := { name := "l", type := .primitive .long }
def x : Var := { name := "x", type := .primitive .int }

def sum : Expr := .binary .add (.var l) (.lit 1)

def test : Node := .stmt 0 0 (.branch (.var c))
def fix : Node := .stmt 1 1 (.assign (.var x) (.lit 1))
def add : Node := .stmt 2 2 (.assign (.var x) sum)
def last : Node := .stmt 3 3 (.ret (some (.var x)))

def graph : FlowGraph :=
  [(.entry, test), (test, fix), (test, add), (fix, last), (add, last), (last, .exit)].foldl
    (fun g e => g.addEdge e.1 e.2) (.empty "f" [c, l])

/-- The procedure as it is written. -/
def form : Form :=
  .list [.symbol "procedure", .symbol "f",
    .list [.symbol "params", .list [.symbol "c", .symbol "int"],
      .list [.symbol "l", .symbol "long"]],
    .list [.symbol "vars", .list [.symbol "x", .symbol "int"]],
    .list [.symbol "node", .integer 0, .list [.symbol "if", .symbol "c"], .integer 1, .integer 2],
    .list [.symbol "node", .integer 1, .list [.symbol "assign", .symbol "x", .integer 1],
      .integer 3],
    .list [.symbol "node", .integer 2, .list [.symbol "assign", .symbol "x",
      .list [.symbol "+", .symbol "l", .integer 1]], .integer 3],
    .list [.symbol "node", .integer 3, .list [.symbol "return", .symbol "x"]]]

theorem built : graph.Built :=
  (FlowGraph.Built.empty "f" [c, l]).foldl_addEdge _

theorem returns : solve graph 20 = .ok (after analysis graph 20).table :=
  (solve_eq_ok_iff built.wellFormed).mpr ⟨by decide, by decide, rfl⟩

/-- What is known before and after the sum: the first parameter may hold anything. -/
def known : Fact := ⟨[(c, .nac)]⟩

theorem mem_table_add :
    (add, { input := known, output := known }) ∈ (after analysis graph 20).table := by
  decide

/-- What is known at the exit. -/
def joined : Fact := ⟨[(c, .nac), (x, .const 1)]⟩

theorem mem_table_exit :
    (.exit, { input := joined, output := joined }) ∈ (after analysis graph 20).table := by
  decide

/-- The sum with something that is no constant anyway. -/
def more : Expr := .binary .add sum (.var c)

end Overlooking

open Overlooking in
theorem untracked_operands_nac_unless_overlooked_sum :
    graph.Built ∧ (∀ y ∈ known.keys, y.tracked = true) ∧
      more.overlooks known = false ∧ more.eval known = more.eval (known.withUntracked more) ∧
      solve graph 20 = .ok (after analysis graph 20).table ∧
      (add, { input := known, output := known }) ∈ (after analysis graph 20).table ∧
      sum.overlooks known = true ∧ known.get x = .undefined := by
  obtain ⟨hrows, heval, hassigned⟩ := untracked_operands_nac_unless_overlooked built
  have hkeys := (hrows 20 add _ mem_table_add).1
  have hmore := (heval known hkeys more).1.mpr (by decide)
  refine ⟨built, hkeys, by decide, hmore, returns, mem_table_add, by decide, ?_⟩
  have hx := hassigned 20 _ returns add _ mem_table_add (by decide) x sum rfl
  rwa [if_pos (by decide)] at hx

open Overlooking in
theorem untracked_operand_reported_constant :
    Loading.procedure form = .ok graph ∧ ∃ table, solve graph 20 = .ok table ∧
      (add, { input := known, output := known }) ∈ table ∧
      sum.eval known = .undefined ∧ sum.eval (known.withUntracked sum) = .nac ∧
      (.exit, { input := joined, output := joined }) ∈ table ∧ joined.get x = .const 1 := by
  refine ⟨?_, _, returns, mem_table_add, by decide, by decide, mem_table_exit, by decide⟩
  decide +kernel

end Propagation

end ConstantFlow

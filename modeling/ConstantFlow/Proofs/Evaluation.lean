import ConstantFlow.Evaluation
import ConstantFlow.Proofs.Fact

/-!
# How values depend on facts

The more a fact says about the variables, the more there is to say about an expression, with one
exception. A value that is not a constant stays one when it is divided by something unknown, and
nothing is known any more once the divisor turns out to be zero: the division collapses. Between two
facts for which this happens nowhere in an expression its evaluation is monotone. So it is up to any
fact under which no divisor is known to be zero, and throughout for expressions that never divide.

Main results:

* `BinOp.onValues_mono`: an operation is monotone unless its divisor turns out to be zero
* `eval_le_or_drops`: the value of an expression goes up with the fact, or it drops from `nac` to
  `undefined`
* `evaluated_mono_iff`: an expression and its parts all go up exactly if no division collapses
* `eval_le_eval`: it goes up to a fact under which no divisor is zero
-/

namespace ConstantFlow

/-! ## Operations -/

theorem BinOp.onValues_nac_right (op : BinOp) (u : Value) : op.onValues u .nac = .nac := by
  cases u <;> simp [onValues]

theorem BinOp.onValues_nac_left {op : BinOp} {v : Value}
    (h : ¬ (op.divides = true ∧ v = .const 0)) : op.onValues .nac v = .nac := by
  simp [onValues, h]

theorem BinOp.onValues_undefined_right {op : BinOp} {u : Value} (h : u ≠ .nac) :
    op.onValues u .undefined = .undefined := by
  cases u <;> simp_all [onValues]

theorem BinOp.onValues_undefined_left {op : BinOp} {v : Value} (h : v ≠ .nac) :
    op.onValues .undefined v = .undefined := by
  cases v <;> simp_all [onValues]

/-- An operation is monotone, unless the greater divisor is known to be zero. -/
theorem BinOp.onValues_mono {op : BinOp} {u u' v v' : Value} (hu : u ≤ u') (hv : v ≤ v')
    (h : ¬ (op.divides = true ∧ v' = .const 0)) : op.onValues u v ≤ op.onValues u' v' := by
  -- an operand that is no constant, left or right, makes the greater side the greatest value
  by_cases hright : v' = .nac
  · rw [hright, onValues_nac_right]
    exact Value.le_nac _
  by_cases hleft : u' = .nac
  · rw [hleft, onValues_nac_left h]
    exact Value.le_nac _
  have hu_ne : u ≠ .nac := fun hn => hleft (le_antisymm (Value.le_nac u') (hn ▸ hu))
  have hv_ne : v ≠ .nac := fun hn => hright (le_antisymm (Value.le_nac v') (hn ▸ hv))
  -- otherwise both operands stay as they are, or one of them was unknown
  rcases hv with rfl | hv | rfl
  · rw [onValues_undefined_right hu_ne]
    exact Value.undefined_le _
  · exact absurd hv hright
  rcases hu with rfl | hu | rfl
  · rw [onValues_undefined_left hv_ne]
    exact Value.undefined_le _
  · exact absurd hu hleft
  · exact le_rfl

theorem BinOp.onValues_zero_right {op : BinOp} (h : op.divides = true) (u : Value) :
    op.onValues u (.const 0) = .undefined := by
  simp [onValues, h]

/-- The value drops from the greatest to the least. -/
def Value.Drops (u v : Value) : Prop :=
  u = .nac ∧ v = .undefined

/-- The only way for an operation on growing values not to be monotone. -/
theorem BinOp.onValues_le_or_drops {op : BinOp} {u u' v v' : Value} (hu : u ≤ u') (hv : v ≤ v') :
    op.onValues u v ≤ op.onValues u' v' ∨
      (op.onValues u v).Drops (op.onValues u' v') ∧
        op.divides = true ∧ u = .nac ∧ v = .undefined ∧ v' = .const 0 := by
  by_cases hzero : op.divides = true ∧ v' = .const 0
  · obtain ⟨hop, rfl⟩ := hzero
    rw [onValues_zero_right hop]
    rcases hv with rfl | hv | rfl
    · -- the divisor was unknown, and only a dividend that is no constant made something of it
      by_cases hnac : u = .nac
      · have hvalue : op.onValues u .undefined = .nac := by
          rw [hnac, onValues_nac_left (by simp)]
        exact Or.inr ⟨⟨hvalue, rfl⟩, hop, hnac, rfl, rfl⟩
      · exact Or.inl (onValues_undefined_right hnac).le
    · cases hv
    · exact Or.inl (onValues_zero_right hop u).le
  · exact Or.inl (onValues_mono hu hv hzero)

/-- An operation on a value that drops drops with it, or is as monotone as before. -/
theorem BinOp.onValues_of_drops_left {op : BinOp} {u u' v v' : Value} (hu : u.Drops u') :
    op.onValues u v ≤ op.onValues u' v' ∨ (op.onValues u v).Drops (op.onValues u' v') := by
  obtain ⟨rfl, rfl⟩ := hu
  by_cases hright : v' = .nac
  · rw [hright, onValues_nac_right]
    exact Or.inl (Value.le_nac _)
  · rw [onValues_undefined_left hright]
    by_cases hzero : op.divides = true ∧ v = .const 0
    · obtain ⟨hop, rfl⟩ := hzero
      exact Or.inl (onValues_zero_right hop _).le
    · exact Or.inr ⟨onValues_nac_left hzero, rfl⟩

theorem BinOp.onValues_of_drops_right {op : BinOp} {u u' v v' : Value} (hv : v.Drops v') :
    op.onValues u v ≤ op.onValues u' v' ∨ (op.onValues u v).Drops (op.onValues u' v') := by
  obtain ⟨rfl, rfl⟩ := hv
  by_cases hleft : u' = .nac
  · rw [hleft, onValues_nac_left (by simp)]
    exact Or.inl (Value.le_nac _)
  · exact Or.inr ⟨onValues_nac_right op u, onValues_undefined_right hleft⟩

/-! ## Expressions -/

namespace Expr

/-- A divisor that is met in the evaluation of the expression is known to be zero. -/
def dividesByZero (f : Fact) : Expr → Bool
  | .binary op l r =>
    (op.divides && r.eval f == .const 0) || l.dividesByZero f || r.dividesByZero f
  | .var _ | .lit _ | .neg _ | .call _ _ | .field _ _ => false

/-- No division is met in the evaluation of the expression. What a negation or a call is applied to
is not evaluated. -/
def divisionFree : Expr → Bool
  | .binary op l r => !op.divides && l.divisionFree && r.divisionFree
  | .var _ | .lit _ | .neg _ | .call _ _ | .field _ _ => true

theorem dividesByZero_of_divisionFree (f : Fact) :
    ∀ {e : Expr}, e.divisionFree = true → e.dividesByZero f = false
  | .var _, _ => rfl
  | .lit _, _ => rfl
  | .binary op l r, h => by
    simp only [divisionFree, Bool.and_eq_true, Bool.not_eq_true'] at h
    have hl := dividesByZero_of_divisionFree f h.1.2
    have hr := dividesByZero_of_divisionFree f h.2
    simp [dividesByZero, h.1.1, hl, hr]
  | .neg _, _ => rfl
  | .call _ _, _ => rfl
  | .field _ _, _ => rfl

/-- Facts that say the same about every variable give an expression the same value. -/
theorem eval_congr {f f' : Fact} (h : f.get = f'.get) (e : Expr) : e.eval f = e.eval f' := by
  fun_induction Expr.eval f e with
  | case1 x => exact congrFun h x
  | case3 op l r ihl ihr => rw [ihl, ihr, eval]
  | case2 | case4 | case5 | case6 => rfl

/-! ### Collapsing divisions -/

/-- A division is met in the evaluation of the expression that collapses on the way from one fact to
another: its dividend is no constant and its divisor unknown under the first, and its divisor is
zero under the second. -/
def collapses (f f' : Fact) : Expr → Bool
  | .binary op l r =>
    (op.divides && l.eval f == .nac && r.eval f == .undefined && r.eval f' == .const 0) ||
      l.collapses f f' || r.collapses f f'
  | .var _ | .lit _ | .neg _ | .call _ _ | .field _ _ => false

/-- The parts of an expression that are met in its evaluation, the expression itself first. -/
def evaluated : Expr → List Expr
  | .binary op l r => .binary op l r :: (l.evaluated ++ r.evaluated)
  | .var x => [.var x]
  | .lit n => [.lit n]
  | .neg e => [.neg e]
  | .call m args => [.call m args]
  | .field x name => [.field x name]

/-- From one fact to a greater one, a value grows or it drops, and for it to drop a division must
collapse. -/
theorem eval_le_or_drops {f f' : Fact} (hle : f ≤ f') (e : Expr) :
    e.eval f ≤ e.eval f' ∨ (e.eval f).Drops (e.eval f') ∧ e.collapses f f' = true := by
  fun_induction Expr.eval f e with
  | case1 x => exact Or.inl (hle x)
  | case3 op l r ihl ihr =>
    rw [eval, collapses]
    rcases ihl with hl | ⟨hl, hcollapse⟩
    · rcases ihr with hr | ⟨hr, hcollapse⟩
      · refine (BinOp.onValues_le_or_drops hl hr).imp_right ?_
        rintro ⟨hdrops, hop, hdividend, hdivisor, hzero⟩
        exact ⟨hdrops, by simp [hop, hdividend, hdivisor, hzero]⟩
      · exact (BinOp.onValues_of_drops_right hr).imp_right fun h => ⟨h, by simp [hcollapse]⟩
    · exact (BinOp.onValues_of_drops_left hl).imp_right fun h => ⟨h, by simp [hcollapse]⟩
  | case2 | case4 | case5 | case6 => exact Or.inl le_rfl

/-- Evaluation is monotone between two facts for which no division collapses. -/
theorem eval_le_of_not_collapses {f f' : Fact} (hle : f ≤ f') {e : Expr}
    (h : e.collapses f f' = false) : e.eval f ≤ e.eval f' :=
  (eval_le_or_drops hle e).resolve_right fun hdrops => by simp [h] at hdrops

/-- An expression is evaluated monotonically, with all of its parts, exactly if no division
collapses. -/
theorem evaluated_mono_iff {f f' : Fact} (hle : f ≤ f') (e : Expr) :
    (∀ p ∈ e.evaluated, p.eval f ≤ p.eval f') ↔ e.collapses f f' = false := by
  fun_induction evaluated e with
  | case1 op l r ihl ihr =>
    rw [List.forall_mem_cons, List.forall_mem_append, ihl, ihr, collapses, Bool.or_eq_false_iff,
      Bool.or_eq_false_iff, and_assoc]
    refine and_congr_left fun hparts => ?_
    constructor
    · -- a division that collapses drops, so it is not monotone
      intro hmono
      by_contra hcollapse
      simp only [Bool.not_eq_false, Bool.and_eq_true, beq_iff_eq] at hcollapse
      obtain ⟨⟨⟨hop, hdividend⟩, hdivisor⟩, hzero⟩ := hcollapse
      rw [eval, eval, hdividend, hdivisor, hzero, BinOp.onValues_zero_right hop,
        BinOp.onValues_nac_left (by simp)] at hmono
      exact absurd hmono (by decide)
    · intro hself
      refine eval_le_of_not_collapses hle ?_
      rw [collapses, hself, hparts.1, hparts.2]
      rfl
  | case2 x =>
    rw [List.forall_mem_singleton]
    exact iff_of_true (hle x) rfl
  | case3 | case4 | case5 | case6 => simp [collapses, eval]

theorem not_collapses_of_dividesByZero (f : Fact) {f' : Fact} {e : Expr}
    (h : e.dividesByZero f' = false) : e.collapses f f' = false := by
  fun_induction collapses f f' e with
  | case1 op l r ihl ihr =>
    simp only [dividesByZero, Bool.or_eq_false_iff] at h
    obtain ⟨⟨hzero, hl⟩, hr⟩ := h
    rw [ihl hl, ihr hr, Bool.or_false, Bool.or_false]
    cases hop : op.divides with
    | false => simp
    | true =>
      rw [hop, Bool.true_and] at hzero
      simp [hzero]
  | case2 | case3 | case4 | case5 | case6 => rfl

/-- Evaluation is monotone up to a fact under which no divisor is known to be zero. -/
theorem eval_le_eval {f f' : Fact} (hle : f ≤ f') {e : Expr} (h : e.dividesByZero f' = false) :
    e.eval f ≤ e.eval f' :=
  eval_le_of_not_collapses hle (not_collapses_of_dividesByZero f h)

end Expr

end ConstantFlow

import ConstantFlow.Proofs.Evaluation
import ConstantFlow.Proofs.Propagation.Cause

/-!
# How far the transfer is monotone

The more arrives at a statement, the more leaves it, as long as nothing but the arriving facts and
the assigned variable is left over from before. The one exception is the assigned variable when a
division in its new value collapses: under the smaller fact the divisor is unknown and the dividend
no constant, under the greater one the divisor is zero. Then the variable drops from `nac` to
`undefined`.

Main results:

* `get_effect_le_or_drops`: the effect of a statement goes up with the fact, or the assigned
  variable drops
* `transfer_monotone_unless_division_collapses`: this for the transfer, with the condition
* `remainder_drops_when_divisor_is_zero`: a remainder for which it drops
-/

namespace ConstantFlow.Propagation

/-- The effect of a statement grows with what arrives, or it drops at the assigned variable. -/
theorem get_effect_le_or_drops {c : Stmt} {f f' : Fact} (hle : f ≤ f') (x : Var) :
    (effect c f).get x ≤ (effect c f').get x ∨
      ∃ e, c.definition? = some (x, e) ∧ ((effect c f).get x).Drops ((effect c f').get x) ∧
        e.collapses f f' = true := by
  by_cases hdef : ∃ e, c.definition? = some (x, e)
  · obtain ⟨e, he⟩ := hdef
    rw [get_effect_self he, get_effect_self he]
    exact (Expr.eval_le_or_drops hle e).imp_right fun h => ⟨e, he, h⟩
  · rw [get_effect_of_ne (not_exists.mp hdef), get_effect_of_ne (not_exists.mp hdef)]
    exact Or.inl (hle x)

/-- Nothing is left over from before: what left then has arrived or is assigned now. -/
def Covers (f : Fact) (c : Stmt) (output : Fact) : Prop :=
  ∀ x ∈ output.keys, x ∈ f.keys ∨ ∃ e, c.definition? = some (x, e)

/-- If nothing is left over, not even under a smaller fact, the effect of the statement leaves. -/
theorem Covers.get_transfer_eq {c : Stmt} {f f' output : Fact} (h : Covers f c output)
    (hf : f.Lawful) (hf' : f'.Lawful) (hle : f ≤ f') :
    (transfer c f' output).1.get = (effect c f').get := by
  refine get_transfer_eq_effect hf' fun x hx h0 => Fact.get_of_not_mem_keys fun hkey => ?_
  rcases h x hkey with hknown | ⟨e, he⟩
  · -- what is listed in the smaller fact is known in the greater one
    have hbelow : f.get x ≤ .undefined := h0 ▸ hle x
    exact get_ne_of_mem_keys hf hknown (le_antisymm hbelow (Value.undefined_le _))
  · exact hx e he

/-- From one fact to a greater one the value of an expression grows, or it drops from `nac` to
`undefined` because a division collapses; it grows with the values of all evaluated parts exactly if
no division collapses. The same goes for what leaves a statement, at every variable, if nothing but
variables of the smaller fact and the assigned variable has left before. -/
theorem transfer_monotone_unless_division_collapses {f f' : Fact} (hf : f.Lawful)
    (hf' : f'.Lawful) (hle : ∀ x, f.get x ≤ f'.get x) :
    (∀ e : Expr,
      (e.eval f ≤ e.eval f' ∨
        e.eval f = .nac ∧ e.eval f' = .undefined ∧ e.collapses f f' = true) ∧
      ((∀ p ∈ e.evaluated, p.eval f ≤ p.eval f') ↔ e.collapses f f' = false)) ∧
    ∀ (c : Stmt) (output : Fact),
      (∀ x ∈ output.keys, x ∈ f.keys ∨ ∃ e, c.definition? = some (x, e)) →
      ∀ x, (transfer c f output).1.get x ≤ (transfer c f' output).1.get x ∨
        ∃ e, c.definition? = some (x, e) ∧ e.collapses f f' = true ∧
          (transfer c f output).1.get x = .nac ∧ (transfer c f' output).1.get x = .undefined := by
  constructor
  · intro e
    refine ⟨?_, Expr.evaluated_mono_iff hle e⟩
    exact (Expr.eval_le_or_drops hle e).imp_right fun ⟨hdrops, h⟩ => ⟨hdrops.1, hdrops.2, h⟩
  · intro c output hout x
    have hcovers : Covers f c output := hout
    rw [hcovers.get_transfer_eq hf hf le_rfl, hcovers.get_transfer_eq hf hf' hle]
    refine (get_effect_le_or_drops hle x).imp_right ?_
    rintro ⟨e, he, hdrops, hcollapse⟩
    exact ⟨e, he, hcollapse, hdrops⟩

/-! The remainder of a parameter by something unknown, which turns out to be zero. -/

namespace Collapsing

open Forgetful

def remainder : Expr := .binary .rem (.var p) (.var z)

/-- Nothing is known of the divisor. -/
def before : Fact := (Fact.empty.update p .nac).1

/-- The divisor is zero. -/
def later : Fact := (before.update z (.const 0)).1

theorem lawful_before : before.Lawful := Fact.lawful_empty.update p .nac

theorem lawful_later : later.Lawful := lawful_before.update z (.const 0)

theorem before_le_later (x : Var) : before.get x ≤ later.get x :=
  Fact.le_update (by decide) x

/-- A variable that is not tracked. -/
def wide : Var := { name := "w", type := .primitive .long }

end Collapsing

open Forgetful Collapsing in
theorem transfer_monotone_unless_division_collapses_sum :
    (∀ x, before.get x ≤ later.get x) ∧
      Expr.collapses before later (.binary .add (.var p) (.var z)) = false ∧
      (∀ x ∈ before.keys, x ∈ before.keys ∨
        ∃ e, (Stmt.assign (.var y) (.binary .add (.var p) (.var z))).definition? = some (x, e)) ∧
      (transfer (.assign (.var y) (.binary .add (.var p) (.var z))) before before).1.get y ≤
        (transfer (.assign (.var y) (.binary .add (.var p) (.var z))) later before).1.get y := by
  refine ⟨before_le_later, by decide, fun x hx => Or.inl hx, ?_⟩
  have hmono := transfer_monotone_unless_division_collapses lawful_before lawful_later
    before_le_later
  refine (hmono.2 _ before (fun x hx => Or.inl hx) y).resolve_right ?_
  rintro ⟨e, he, hcollapse, _⟩
  cases he
  cases hcollapse

open Forgetful Collapsing in
theorem remainder_drops_when_divisor_is_zero :
    (∀ x, before.get x ≤ later.get x) ∧ ¬ remainder.eval before ≤ remainder.eval later ∧
      ¬ (transfer (.assign (.var y) remainder) before .empty).1.get y ≤
        (transfer (.assign (.var y) remainder) later .empty).1.get y ∧
      -- an assignment to a variable that is not tracked leaves what was left over for it
      ¬ (transfer (.assign (.var wide) (.lit 1)) .empty ⟨[(wide, .nac)]⟩).1.get wide ≤
        (transfer (.assign (.var wide) (.lit 1)) ⟨[(wide, .const 1)]⟩ ⟨[(wide, .nac)]⟩).1.get
          wide := by
  exact ⟨before_le_later, by decide, by decide, by decide⟩

end ConstantFlow.Propagation

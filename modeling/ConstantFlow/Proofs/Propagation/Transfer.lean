import ConstantFlow.Propagation
import ConstantFlow.Proofs.Fact

/-!
# What a statement does to a fact

The effect of a statement on the fact that arrives, and how the transfer of constant propagation
comes to it. The transfer lays the arriving fact over the one that left before, so it gives the
effect as long as no variable was known only before. It reports every change of the leaving fact;
it also reports one, with nothing changed, for a restless statement: one whose variable arrives
with a value other than the one it is given.

Main results:

* `get_transfer_eq_effect`: the transfer gives the effect of the statement
* `transfer_changed_iff`: when it reports a change
* `transfer_changed_iff_of_settled`: with nothing changed, it does so exactly for a restless
  statement
-/

namespace ConstantFlow

/-- A definition is an assignment to a tracked variable. -/
theorem Stmt.definition?_eq_some_iff {c : Stmt} {x : Var} {e : Expr} :
    c.definition? = some (x, e) ↔ c = .assign (.var x) e ∧ x.tracked = true := by
  constructor
  · intro h
    unfold definition? at h
    split at h
    · split at h
      case isTrue htracked =>
        cases h
        exact ⟨rfl, htracked⟩
      case isFalse => cases h
    · cases h
  · rintro ⟨rfl, htracked⟩
    exact if_pos htracked

namespace Propagation

/-- The fact that should leave a statement: the assigned variable has the value of the right-hand
side, and all else is as it arrives. -/
def effect (c : Stmt) (f : Fact) : Fact :=
  match c.definition? with
  | some (x, e) => (f.update x (e.eval f)).1
  | none => f

/-- The statement gives a tracked variable a value other than the one that arrives for it. -/
def Restless (c : Stmt) (f : Fact) : Prop :=
  ∃ x e, c.definition? = some (x, e) ∧ f.get x ≠ .undefined ∧ f.get x ≠ e.eval f

/-! ## Effects -/

theorem effect_of_definition {c : Stmt} {x : Var} {e : Expr} (h : c.definition? = some (x, e))
    (f : Fact) : effect c f = (f.update x (e.eval f)).1 := by
  simp only [effect, h]

theorem effect_of_none {c : Stmt} (h : c.definition? = none) (f : Fact) : effect c f = f := by
  simp only [effect, h]

/-- Only the assigned variable is affected. -/
theorem get_effect_of_ne {c : Stmt} {x : Var} (h : ∀ e, c.definition? ≠ some (x, e)) (f : Fact) :
    (effect c f).get x = f.get x := by
  cases hd : c.definition? with
  | none => rw [effect_of_none hd]
  | some d =>
    rcases d with ⟨y, e⟩
    have hne : x ≠ y := fun hxy => h e (hxy ▸ hd)
    rw [effect_of_definition hd, Fact.get_update, if_neg hne]

theorem get_effect_self {c : Stmt} {x : Var} {e : Expr} (h : c.definition? = some (x, e))
    (f : Fact) : (effect c f).get x = e.eval f := by
  rw [effect_of_definition h, Fact.get_update, if_pos rfl]

/-- The effects on two facts are related at a variable if the facts are, and the values that are
assigned to it under them. -/
theorem get_effect_rel {r : Value → Value → Prop} {c : Stmt} {f f' : Fact} {x : Var}
    (hget : r (f.get x) (f'.get x))
    (heval : ∀ e, c.definition? = some (x, e) → r (e.eval f) (e.eval f')) :
    r ((effect c f).get x) ((effect c f').get x) := by
  by_cases hdef : ∃ e, c.definition? = some (x, e)
  · obtain ⟨e, he⟩ := hdef
    rw [get_effect_self he, get_effect_self he]
    exact heval e he
  · rw [get_effect_of_ne (not_exists.mp hdef), get_effect_of_ne (not_exists.mp hdef)]
    exact hget

/-! ## Transfers -/

theorem transfer_of_none {c : Stmt} (h : c.definition? = none) (input output : Fact) :
    transfer c input output = output.overwrite input := by
  simp only [transfer, h]

theorem transfer_of_definition {c : Stmt} {x : Var} {e : Expr} (h : c.definition? = some (x, e))
    (input output : Fact) :
    transfer c input output =
      ((((output.overwrite input).1.erase x).update x (e.eval input)).1,
        decide ((output.overwrite input).1.get x ≠ e.eval input) ||
          (output.overwrite input).2) := by
  simp only [transfer, h, rebind]

theorem lawful_transfer {output : Fact} (ho : output.Lawful) (c : Stmt) (input : Fact) :
    (transfer c input output).1.Lawful := by
  cases h : c.definition? with
  | none =>
    rw [transfer_of_none h]
    exact ho.overwrite input
  | some d =>
    rw [transfer_of_definition h]
    exact ((ho.overwrite input).erase _).update _ _

theorem get_transfer_self {c : Stmt} {x : Var} {e : Expr} (h : c.definition? = some (x, e))
    (input output : Fact) : (transfer c input output).1.get x = e.eval input := by
  rw [transfer_of_definition h, Fact.get_update, if_pos rfl]

/-- At other variables the arriving fact wins, where it says something. -/
theorem get_transfer_of_ne {c : Stmt} {x : Var} (h : ∀ e, c.definition? ≠ some (x, e))
    {input : Fact} (hi : input.Lawful) (output : Fact) :
    (transfer c input output).1.get x =
      if input.get x = .undefined then output.get x else input.get x := by
  cases hd : c.definition? with
  | none => rw [transfer_of_none hd, Fact.get_overwrite output hi]
  | some d =>
    rcases d with ⟨y, e⟩
    have hne : x ≠ y := fun hxy => h e (hxy ▸ hd)
    rw [transfer_of_definition hd, Fact.get_update, if_neg hne, Fact.get_erase, if_neg hne,
      Fact.get_overwrite output hi]

/-- The leaving fact is the effect of the statement, unless something is left over from before. -/
theorem get_transfer_eq_effect {c : Stmt} {input output : Fact} (hi : input.Lawful)
    (hstale : ∀ x, (∀ e, c.definition? ≠ some (x, e)) → input.get x = .undefined →
      output.get x = .undefined) :
    (transfer c input output).1.get = (effect c input).get := by
  funext x
  by_cases hx : ∃ e, c.definition? = some (x, e)
  · rcases hx with ⟨e, he⟩
    rw [get_transfer_self he, get_effect_self he]
  · rw [not_exists] at hx
    rw [get_transfer_of_ne hx hi, get_effect_of_ne hx]
    by_cases h0 : input.get x = .undefined
    · rw [if_pos h0, hstale x hx h0, h0]
    · rw [if_neg h0]

/-! ## The report of a change -/

/-- A transfer reports a change if the arriving fact says something new, or if the assigned
variable does not have its new value after the arriving fact has been laid over. -/
theorem transfer_changed_iff (c : Stmt) {input : Fact} (hi : input.Lawful) (output : Fact) :
    (transfer c input output).2 = true ↔
      (∃ x, input.get x ≠ .undefined ∧ output.get x ≠ input.get x) ∨
        ∃ x e, c.definition? = some (x, e) ∧
          (if input.get x = .undefined then output.get x else input.get x) ≠ e.eval input := by
  cases hd : c.definition? with
  | none =>
    rw [transfer_of_none hd, Fact.overwrite_changed_iff output hi]
    simp
  | some d =>
    rcases d with ⟨y, e⟩
    rw [transfer_of_definition hd, Bool.or_eq_true, decide_eq_true_eq,
      Fact.overwrite_changed_iff output hi, Fact.get_overwrite output hi, or_comm]
    refine or_congr_right ⟨fun h => ⟨y, e, rfl, h⟩, ?_⟩
    rintro ⟨x, e', he, h⟩
    rw [Option.some.injEq, Prod.mk.injEq] at he
    rw [he.1, he.2]
    exact h

/-- A transfer that reports no change leaves what left before. -/
theorem get_transfer_of_unchanged {c : Stmt} {input output : Fact} (hi : input.Lawful)
    (h : (transfer c input output).2 = false) :
    (transfer c input output).1.get = output.get := by
  have hno : ¬ (transfer c input output).2 = true := by simp [h]
  rw [transfer_changed_iff c hi, not_or] at hno
  rcases hno with ⟨hover, hself⟩
  -- laying the arriving fact over changed nothing, so no value compared with it did
  have hsame : ∀ x, (if input.get x = .undefined then output.get x else input.get x) =
      output.get x := by
    intro x
    by_cases h0 : input.get x = .undefined
    · rw [if_pos h0]
    · rw [if_neg h0]
      by_contra hne
      exact hover ⟨x, h0, Ne.symm hne⟩
  funext x
  by_cases hx : ∃ e, c.definition? = some (x, e)
  · rcases hx with ⟨e, he⟩
    rw [get_transfer_self he, ← hsame x]
    by_contra hne
    exact hself ⟨x, e, he, Ne.symm hne⟩
  · rw [get_transfer_of_ne (not_exists.mp hx) hi, hsame x]

/-- A restless statement reports a change, whatever left before. -/
theorem Restless.changed {c : Stmt} {input : Fact} (h : Restless c input) (hi : input.Lawful)
    (output : Fact) : (transfer c input output).2 = true := by
  rcases h with ⟨x, e, hd, hx, hne⟩
  rw [transfer_changed_iff c hi]
  exact Or.inr ⟨x, e, hd, by rwa [if_neg hx]⟩

/-- Where nothing else leaves than before, only a restless statement reports a change. -/
theorem transfer_changed_iff_of_settled {c : Stmt} {input output : Fact} (hi : input.Lawful)
    (hsame : (transfer c input output).1.get = output.get) :
    (transfer c input output).2 = true ↔ Restless c input := by
  constructor
  · rw [transfer_changed_iff c hi]
    rintro (⟨x, hx, hne⟩ | ⟨x, e, hd, hne⟩)
    · -- what arrives differs from what leaves at the assigned variable only
      rw [← congrFun hsame x] at hne
      by_cases hdef : ∃ e, c.definition? = some (x, e)
      · rcases hdef with ⟨e, he⟩
        rw [get_transfer_self he] at hne
        exact ⟨x, e, he, hx, Ne.symm hne⟩
      · rw [get_transfer_of_ne (not_exists.mp hdef) hi, if_neg hx] at hne
        exact absurd rfl hne
    · -- a variable that does not arrive is compared with its old value, which is the new one
      by_cases hx : input.get x = .undefined
      · rw [if_pos hx, ← congrFun hsame x, get_transfer_self hd] at hne
        exact absurd rfl hne
      · rw [if_neg hx] at hne
        exact ⟨x, e, hd, hx, hne⟩
  · intro h
    exact h.changed hi output

/-- Where the effect has left before, only a restless statement reports a change. -/
theorem transfer_changed_iff_restless {c : Stmt} {input output : Fact} (hi : input.Lawful)
    (ho : output.get = (effect c input).get) :
    (transfer c input output).2 = true ↔ Restless c input := by
  refine transfer_changed_iff_of_settled hi ?_
  rw [ho]
  refine get_transfer_eq_effect hi fun x hx h0 => ?_
  rw [ho, get_effect_of_ne hx, h0]

/-! ## The boundary -/

theorem boundary_eq (g : FlowGraph) :
    boundary g = Fact.empty.withNac (g.params.filter Var.tracked) := by
  rw [Fact.withNac, List.foldl_filter]
  rfl

theorem lawful_boundary (g : FlowGraph) : (boundary g).Lawful := by
  rw [boundary_eq]
  exact Fact.lawful_empty.withNac _

/-- The tracked parameters may hold anything, and nothing is known of other variables. -/
theorem get_boundary (g : FlowGraph) (x : Var) :
    (boundary g).get x = if x ∈ g.params ∧ x.tracked = true then .nac else .undefined := by
  rw [boundary_eq, Fact.get_withNac, Fact.get_empty]
  simp only [List.mem_filter]

end Propagation

end ConstantFlow

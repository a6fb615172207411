import ConstantFlow.Proofs.Propagation.Transfer

/-!
# Transferring again

What a transfer leaves, what it reports, and what happens when it is made again with the same
arriving fact. The first transfer settles the leaving fact: a second one leaves it as it is, entry
by entry, and reports a change only for a restless statement, which it does every time. So once no
change is reported, none ever will be.

Main results:

* `transfer_transfer`: a second transfer leaves the same fact
* `transfer_transfer_changed_iff`: when it reports a change
* `repeated_unchanged`: once no change is reported, none will be
* `transfer_settles_at_once`: all of this about any number of transfers
-/

namespace ConstantFlow.Propagation

variable {c : Stmt} {input output : Fact}

theorem restless_iff (hi : input.Lawful) :
    Restless c input ↔ ∃ x e, c = .assign (.var x) e ∧ x.tracked = true ∧
      input.contains x = true ∧ input.get x ≠ e.eval input := by
  simp only [Restless, Stmt.definition?_eq_some_iff, hi.contains_iff, and_assoc]

/-! ## The second transfer -/

/-- A transfer leaves what has left already, the order of its entries included. -/
theorem transfer_transfer (hi : input.Lawful) :
    (transfer c input (transfer c input output).1).1 = (transfer c input output).1 := by
  cases hd : c.definition? with
  | none =>
    rw [transfer_of_none hd, transfer_of_none hd]
    exact Fact.overwrite_overwrite output hi
  | some d =>
    rcases d with ⟨x, e⟩
    -- the assigned variable is bound anew behind all others, and the others are there already
    have hrest : ((transfer c input output).1.overwrite input).1.erase x =
        (output.overwrite input).1.erase x := by
      rw [transfer_of_definition hd, Fact.erase_overwrite, Fact.erase_update_self, Fact.erase_erase,
        ← Fact.erase_overwrite, Fact.overwrite_overwrite output hi]
    rw [transfer_of_definition hd input (transfer c input output).1, hrest,
      transfer_of_definition hd]

/-- A second transfer reports a change exactly for a restless statement. -/
theorem transfer_transfer_changed_iff (hi : input.Lawful) :
    (transfer c input (transfer c input output).1).2 = true ↔ Restless c input :=
  transfer_changed_iff_of_settled hi (by rw [transfer_transfer hi])

/-- A transfer that changes the leaving fact says so. -/
theorem changed_of_not_same (hi : input.Lawful) (ho : output.Lawful)
    (h : (transfer c input output).1.same output = false) : (transfer c input output).2 = true := by
  by_contra hno
  have hget := get_transfer_of_unchanged hi (Bool.eq_false_of_not_eq_true hno)
  rw [(Fact.same_iff (lawful_transfer ho c input) ho).mpr hget] at h
  cases h

/-! ## Any number of transfers -/

/-- The fact that has left after a number of transfers with the same arriving fact. -/
def repeated (c : Stmt) (input output : Fact) : Nat → Fact
  | 0 => output
  | k + 1 => (transfer c input (repeated c input output k)).1

/-- From the first transfer on, the same fact leaves. -/
theorem repeated_succ (hi : input.Lawful) (k : Nat) :
    repeated c input output (k + 1) = (transfer c input output).1 := by
  induction k with
  | zero => rfl
  | succ k ih => rw [repeated, ih, transfer_transfer hi]

/-- Once no change is reported, none will be. -/
theorem repeated_unchanged (hi : input.Lawful) (h : (transfer c input output).2 = false)
    (k : Nat) : (transfer c input (repeated c input output k)).2 = false := by
  cases k with
  | zero => exact h
  | succ k =>
    rw [repeated_succ hi]
    by_contra hchanged
    -- a restless statement would have reported a change before
    have hrestless := (transfer_transfer_changed_iff hi).mp (Bool.eq_true_of_not_eq_false hchanged)
    rw [hrestless.changed hi output] at h
    cases h

theorem lawful_repeated (ho : output.Lawful) (k : Nat) : (repeated c input output k).Lawful := by
  induction k with
  | zero => exact ho
  | succ k ih => exact lawful_transfer ih c input

/-- The fact that leaves has the value of the right-hand side at the assigned variable, and at every
other variable what arrives, or else what left before. A change of it is reported. A second transfer
leaves it as it is, and reports a change exactly if the assigned variable arrives with another value
than it is given. Once a transfer reports no change, no further one does, and nothing changes. -/
theorem transfer_settles_at_once {c : Stmt} {input output : Fact} (hi : input.Lawful)
    (ho : output.Lawful) :
    (∀ x e, c = .assign (.var x) e → x.tracked = true →
      (transfer c input output).1.get x = e.eval input) ∧
    (∀ x, (¬ ∃ e, c = .assign (.var x) e ∧ x.tracked = true) →
      (transfer c input output).1.get x =
        if input.contains x then input.get x else output.get x) ∧
    ((transfer c input output).1.same output = false → (transfer c input output).2 = true) ∧
    (transfer c input (transfer c input output).1).1 = (transfer c input output).1 ∧
    ((transfer c input (transfer c input output).1).2 = true ↔
      ∃ x e, c = .assign (.var x) e ∧ x.tracked = true ∧ input.contains x = true ∧
        input.get x ≠ e.eval input) ∧
    ((transfer c input output).2 = false → ∀ k,
      (transfer c input (repeated c input output k)).2 = false ∧
        (transfer c input (repeated c input output k)).1.same
          (repeated c input output k) = true) := by
  refine ⟨?_, ?_, changed_of_not_same hi ho, transfer_transfer hi,
    (transfer_transfer_changed_iff hi).trans (restless_iff hi), ?_⟩
  · intro x e hc hx
    exact get_transfer_self (Stmt.definition?_eq_some_iff.mpr ⟨hc, hx⟩) input output
  · intro x hx
    have hother : ∀ e, c.definition? ≠ some (x, e) :=
      fun e he => hx ⟨e, Stmt.definition?_eq_some_iff.mp he⟩
    rw [get_transfer_of_ne hother hi]
    by_cases h0 : input.get x = .undefined
    · rw [if_pos h0, if_neg (by simp [hi.contains_iff, h0])]
    · rw [if_neg h0, if_pos (hi.contains_iff.mpr h0)]
  · intro h k
    have hunchanged := repeated_unchanged hi h k
    have hlawful : (repeated c input output k).Lawful := lawful_repeated ho k
    exact ⟨hunchanged, (Fact.same_iff (lawful_transfer hlawful c input) hlawful).mpr
      (get_transfer_of_unchanged hi hunchanged)⟩

/-! An assignment of five to `x`, once with `x` arriving as something else, once with five having
left before. -/

namespace Repeating

def x : Var := { name := "x", type := .primitive .int }

def five : Stmt := .assign (.var x) (.lit 5)

/-- `x` arrives as no constant. -/
def arriving : Fact := (Fact.empty.update x .nac).1

/-- Five has left for `x`. -/
def left : Fact := (Fact.empty.update x (.const 5)).1

theorem lawful_arriving : arriving.Lawful := Fact.lawful_empty.update x .nac

theorem lawful_left : left.Lawful := Fact.lawful_empty.update x (.const 5)

end Repeating

open Repeating in
theorem transfer_settles_at_once_repeating :
    arriving.Lawful ∧ left.Lawful ∧
      (transfer five arriving (transfer five arriving left).1).2 = true ∧
      (transfer five .empty left).2 = false ∧
      ∀ k, (transfer five .empty (repeated five .empty left k)).2 = false := by
  obtain ⟨_, _, _, _, hrestless, _⟩ :=
    transfer_settles_at_once (c := five) lawful_arriving lawful_left
  obtain ⟨_, _, _, _, _, hquiet⟩ :=
    transfer_settles_at_once (c := five) Fact.lawful_empty lawful_left
  have hunchanged : (transfer five .empty left).2 = false := by decide
  refine ⟨lawful_arriving, lawful_left, ?_, hunchanged, fun k => (hquiet hunchanged k).1⟩
  exact hrestless.mpr ⟨x, .lit 5, rfl, rfl, by decide, by decide⟩

end ConstantFlow.Propagation

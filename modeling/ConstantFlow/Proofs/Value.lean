import ConstantFlow.Value
import Mathlib.Order.Lattice
import Mathlib.Order.BoundedOrder.Basic

/-!
# The lattice of values

The information order on values is a partial order with a least and a greatest element, and the
join of two values is their least upper bound. The height of a value counts the steps up to it:
a value that goes up can do so at most twice.

Main results:

* `undefined_le`: the least value; likewise `le_nac` for the greatest
* `join_eq_sup`: joins are least upper bounds
* `eq_of_height_eq`: a value that goes up gains height, and there are two steps at most
-/

namespace ConstantFlow.Value

theorem le_def {a b : Value} : a ≤ b ↔ a = .undefined ∨ b = .nac ∨ a = b :=
  Iff.rfl

instance : PartialOrder Value where
  le_refl _ := Or.inr (Or.inr rfl)
  le_trans := by
    intro a b c hab hbc
    rw [le_def] at hab hbc ⊢
    rcases hab with rfl | rfl | rfl
    · exact Or.inl rfl
    · rcases hbc with h | rfl | rfl
      · cases h
      · exact Or.inr (Or.inl rfl)
      · exact Or.inr (Or.inl rfl)
    · exact hbc
  le_antisymm := by
    intro a b hab hba
    rw [le_def] at hab hba
    rcases hab with rfl | rfl | rfl
    · rcases hba with rfl | h | rfl
      · rfl
      · cases h
      · rfl
    · rcases hba with h | rfl | rfl
      · cases h
      · rfl
      · rfl
    · rfl

theorem undefined_le (a : Value) : .undefined ≤ a :=
  Or.inl rfl

theorem le_nac (a : Value) : a ≤ .nac :=
  Or.inr (Or.inl rfl)

instance : OrderBot Value where
  bot := .undefined
  bot_le := undefined_le

/-! ## Joins are least upper bounds -/

theorem left_le_join (a b : Value) : a ≤ a.join b := by
  cases a with
  | undefined => exact undefined_le _
  | nac => cases b <;> exact le_rfl
  | const c =>
    cases b with
    | undefined => exact le_rfl
    | nac => exact le_nac _
    | const d =>
      simp only [join]
      split
      · exact le_rfl
      · exact le_nac _

theorem join_comm (a b : Value) : a.join b = b.join a := by
  cases a <;> cases b <;> try rfl
  case const.const c d =>
    simp only [join]
    by_cases h : c = d
    · simp [h]
    · simp [h, Ne.symm h]

theorem join_le {a b c : Value} (ha : a ≤ c) (hb : b ≤ c) : a.join b ≤ c := by
  rw [le_def] at ha hb
  rcases ha with rfl | rfl | rfl
  · cases b <;> exact hb
  · exact le_nac _
  · rcases hb with rfl | rfl | rfl
    · cases a <;> exact le_rfl
    · exact le_nac _
    · cases b with
      | const c => simp [join]
      | undefined => exact le_rfl
      | nac => exact le_rfl

instance : SemilatticeSup Value where
  sup := join
  le_sup_left := left_le_join
  le_sup_right a b := join_comm b a ▸ left_le_join b a
  sup_le _ _ _ := join_le

theorem join_eq_sup (a b : Value) : a.join b = a ⊔ b :=
  rfl

/-! ## Height -/

/-- The number of steps from `undefined` up to a value. -/
def height : Value → Nat
  | .undefined => 0
  | .const _ => 1
  | .nac => 2

theorem height_le_two (a : Value) : a.height ≤ 2 := by
  cases a <;> simp [height]

theorem height_mono {a b : Value} (h : a ≤ b) : a.height ≤ b.height := by
  rcases h with rfl | rfl | rfl
  · exact Nat.zero_le _
  · exact height_le_two a
  · exact Nat.le_refl _

/-- Two comparable values of one height are the same. -/
theorem eq_of_height_eq {a b : Value} (h : a ≤ b) (he : a.height = b.height) : a = b := by
  rcases h with rfl | rfl | rfl
  · cases b <;> simp_all [height]
  · cases a <;> simp_all [height]
  · rfl

end ConstantFlow.Value

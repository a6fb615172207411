import ConstantFlow.Value
import Mathlib.Data.Int.Bitwise

/-!
# Low bits of integers

Masks and wrapping in terms of bit vectors. A mask keeps exactly those bits of the infinite two's
complement that it has itself, so the mask of the first `w` bits gives the bit vector of `w` bits,
read without a sign, and wrapping reads that of 32 bits with its sign.

Main results:

* `testBit_masked`: the bits that a mask keeps
* `masked_two_pow_sub_one`: the low bits of an integer as a bit vector
* `wrap_eq_toInt`: wrapping is the conversion into a word and back; likewise `ofInt_eq`
-/

namespace ConstantFlow

namespace Word

/-! ## Masks -/

/-- The bits of a bit vector are the first bits of the integer it was made from. -/
theorem getLsbD_ofInt {w : Nat} (n : Int) {i : Nat} (hi : i < w) :
    (BitVec.ofInt w n).getLsbD i = n.testBit i := by
  cases n with
  | ofNat m =>
    rw [Int.ofNat_eq_natCast, BitVec.ofInt_natCast, BitVec.getLsbD_ofNat]
    simp [hi, Int.testBit]
  | negSucc m =>
    rw [BitVec.ofInt_negSucc_eq_not_ofNat, BitVec.getLsbD_not, BitVec.getLsbD_ofNat]
    simp [hi, Int.testBit]

theorem testBit_masked (mask : Nat) (n : Int) (i : Nat) :
    (masked mask n).testBit i = (mask.testBit i && n.testBit i) := by
  cases n with
  | ofNat m =>
    rw [masked, Nat.testBit_and, Bool.and_comm]
    rfl
  | negSucc m =>
    rw [masked, Nat.testBit_xor, Nat.testBit_and, Int.testBit]
    cases mask.testBit i <;> cases m.testBit i <;> rfl

theorem masked_two_pow_sub_one (w : Nat) (n : Int) :
    masked (2 ^ w - 1) n = (BitVec.ofInt w n).toNat := by
  apply Nat.eq_of_testBit_eq
  intro i
  rw [testBit_masked, Nat.testBit_two_pow_sub_one, BitVec.testBit_toNat]
  by_cases hi : i < w
  · rw [getLsbD_ofInt n hi, decide_eq_true hi, Bool.true_and]
  · rw [BitVec.getLsbD_of_ge _ i (not_lt.mp hi), decide_eq_false hi, Bool.false_and]

/-! ## Wrapping -/

theorem masked_mask (n : Int) : masked mask n = (BitVec.ofInt 32 n).toNat :=
  masked_two_pow_sub_one 32 n

theorem wrap_eq_toInt (n : Int) : wrap n = (Int32.ofInt n).toInt := by
  have hgreatest : greatest = 2 ^ 31 - 1 := by decide
  have hsigned := BitVec.toInt_eq_toNat_cond (BitVec.ofInt 32 n)
  rw [← masked_mask] at hsigned
  show wrap n = (BitVec.ofInt 32 n).toInt
  rw [hsigned, wrap, hgreatest]
  split <;> split <;> omega

theorem ofInt_eq (n : Int) : ofInt n = Int32.ofInt n := by
  rw [ofInt, wrap_eq_toInt, Int32.ofInt_toInt]

theorem toInt_ofInt (n : Int) : (ofInt n).toInt = wrap n := by
  rw [ofInt_eq, wrap_eq_toInt]

end Word

theorem Value.ofInt_eq (n : Int) : ofInt n = .const (Int32.ofInt n) :=
  congrArg const (Word.ofInt_eq n)

end ConstantFlow

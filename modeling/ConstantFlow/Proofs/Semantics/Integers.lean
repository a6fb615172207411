import ConstantFlow.Proofs.Semantics.Machine
import Mathlib.Data.Int.Bitwise

/-!
# Operators on integers of any size

What the operators are on unbounded integers, whose bits in two's complement never end. Folding
wraps that once, also where it only looks at the low words of its operands. On two words it gives
what the machine computes: the bits of the machine's word, read with their sign, are the wrapped
integer. Quotients truncate toward zero and all of them are words, except that of the least word by
minus one, which wraps to the least word; remainders go with the quotients.

Main results:

* `lowWord_compute`: what is computed has the low word of the operation on unbounded integers
* `fold_eq_onIntegers`: folding wraps that operation once
* `fold_is_machine_operation`: on two words it is the operation of the machine
-/

namespace ConstantFlow.BinOp

/-- The integer that an operator gives on integers of any size. Bits are those of the infinite
two's complement; shifts multiply and divide by powers of two. -/
def onIntegers (op : BinOp) (a b : Int) : Int :=
  match op with
  | .add => a + b
  | .sub => a - b
  | .mul => a * b
  | .div => a.tdiv b
  | .rem => a.tmod b
  | .shl => a * 2 ^ (b % 32).toNat
  | .shr => a / 2 ^ (b % 32).toNat
  | .ushr => ((a % 2 ^ 32).toNat >>> (b % 32).toNat : Nat)
  | .or => a.lor b
  | .and => a.land b
  | .xor => a.xor b
  | .eq => if a = b then 1 else 0
  | .ne => if a = b then 0 else 1
  | .lt => if a < b then 1 else 0
  | .gt => if b < a then 1 else 0
  | .le => if a ≤ b then 1 else 0
  | .ge => if b ≤ a then 1 else 0

/-! ## Low words -/

/-- The bits of the low word are the first bits of the integer. -/
theorem getLsbD_lowWord (n : Int) {i : Nat} (hi : i < 32) :
    (lowWord n).getLsbD i = n.testBit i :=
  Word.getLsbD_ofInt n hi

theorem lowWord_lor (a b : Int) : lowWord (a.lor b) = lowWord a ||| lowWord b := by
  apply BitVec.eq_of_getLsbD_eq
  intro i hi
  rw [BitVec.getLsbD_or, getLsbD_lowWord _ hi, getLsbD_lowWord _ hi, getLsbD_lowWord _ hi,
    Int.testBit_lor]

theorem lowWord_land (a b : Int) : lowWord (a.land b) = lowWord a &&& lowWord b := by
  apply BitVec.eq_of_getLsbD_eq
  intro i hi
  rw [BitVec.getLsbD_and, getLsbD_lowWord _ hi, getLsbD_lowWord _ hi, getLsbD_lowWord _ hi,
    Int.testBit_land]

theorem lowWord_xor (a b : Int) : lowWord (a.xor b) = lowWord a ^^^ lowWord b := by
  apply BitVec.eq_of_getLsbD_eq
  intro i hi
  rw [BitVec.getLsbD_xor, getLsbD_lowWord _ hi, getLsbD_lowWord _ hi, getLsbD_lowWord _ hi,
    Int.testBit_lxor]

/-- An integer wraps to what its low word says. -/
theorem ofInt_congr {m n : Int} (h : lowWord m = lowWord n) : Word.ofInt m = Word.ofInt n := by
  rw [Word.ofInt_eq, Word.ofInt_eq]
  exact congrArg Int32.ofBitVec h

theorem toNat_lowWord (a : Int) : (lowWord a).toNat = (a % 2 ^ 32).toNat :=
  BitVec.toNat_ofInt a

/-- What is computed before wrapping has the low word of the operation on unbounded integers. -/
theorem lowWord_compute (op : BinOp) (a b : Int) :
    lowWord (op.compute a b) = lowWord (op.onIntegers a b) := by
  cases op with
  | add | sub | mul => rfl
  | div => rw [compute, onIntegers, quotient_eq_tdiv]
  | rem => rw [compute, onIntegers, remainder_eq_tmod]
  | shl => rw [compute, onIntegers, Int.shiftLeft_eq, shiftDistance_eq_emod]
  | shr =>
    rw [compute, onIntegers, Int.shiftRight_eq_div_pow, shiftDistance_eq_emod]
    push_cast
    rfl
  | ushr =>
    rw [compute, onIntegers, Word.masked_mask, ← lowWord, toNat_lowWord, shiftDistance_eq_emod]
  | or => rw [compute, onIntegers, lowWord_lor, lowWord, BitVec.ofInt_toInt]
  | and => rw [compute, onIntegers, lowWord_land, lowWord, BitVec.ofInt_toInt]
  | xor => rw [compute, onIntegers, lowWord_xor, lowWord, BitVec.ofInt_toInt]
  | eq | lt | gt | le | ge => rfl
  | ne => rw [compute, onIntegers, truth, ite_not]

/-- Folding wraps what the operator gives on unbounded integers. -/
theorem fold_eq_onIntegers (op : BinOp) (a b : Int) :
    op.fold a b =
      if op.divides = true ∧ b = 0 then .error .zeroDivisor
      else .ok (Word.ofInt (op.onIntegers a b)) := by
  rw [fold, ofInt_congr (lowWord_compute op a b)]

/-! ## Quotients and remainders of words -/

/-- The signed value of the machine's quotient: only that of the least word by minus one does not
fit. -/
theorem toInt_onBits_div (x y : BitVec 32) :
    (onBits .div x y).toInt =
      if x.toInt = Word.least ∧ y.toInt = -1 then Word.least else x.toInt.tdiv y.toInt := by
  have hleast : x.toInt = Word.least ↔ x = BitVec.intMin 32 :=
    BitVec.toInt_inj (y := BitVec.intMin 32)
  have hminus : y.toInt = -1 ↔ y = -1#32 := BitVec.toInt_inj (y := -1#32)
  simp only [hleast, hminus, onBits]
  split
  case isTrue h =>
    rw [h.1, h.2, BitVec.intMin_sdiv_neg_one]
    rfl
  case isFalse h => exact BitVec.toInt_sdiv_of_ne_or_ne x y (not_and_or.mp h)

/-- The signed value of the machine's remainder has the sign of the dividend. -/
theorem toInt_onBits_rem (x y : BitVec 32) :
    (onBits .rem x y).toInt = x.toInt.tmod y.toInt ∧
      ((onBits .rem x y).toInt = 0 ∨ (onBits .rem x y).toInt.sign = x.toInt.sign) := by
  have hrem : (onBits .rem x y).toInt = x.toInt.tmod y.toInt := BitVec.toInt_srem x y
  refine ⟨hrem, ?_⟩
  rw [hrem, ← Int.sign_eq_zero_iff_zero, Int.sign_tmod]
  split
  · exact Or.inl rfl
  · exact Or.inr rfl

/-! ## Folding two words -/

/-- An integer in the range of words is the signed value of its low word. -/
theorem toInt_lowWord {a : Int} (h : Word.least ≤ a ∧ a ≤ Word.greatest) :
    (lowWord a).toInt = a := by
  have hlo : Word.least = -2 ^ 31 := by decide
  have hhi : Word.greatest = 2 ^ 31 - 1 := by decide
  exact BitVec.toInt_ofInt_eq_self (by decide) (by omega) (by omega)

/-- The machine computes the low word of the operation on unbounded integers. -/
theorem lowWord_onIntegers (op : BinOp) {a b : Int} (ha : Word.least ≤ a ∧ a ≤ Word.greatest)
    (hb : Word.least ≤ b ∧ b ≤ Word.greatest) :
    lowWord (op.onIntegers a b) = op.onBits (lowWord a) (lowWord b) := by
  have hcompute := ofInt_compute op (lowWord a) (lowWord b)
  rw [toInt_lowWord ha, toInt_lowWord hb] at hcompute
  rw [← lowWord_compute, ← hcompute, lowWord]

/-- Folding two words gives the word that the machine computes on their bits, which is the wrapped
integer. Quotients truncate, and only the least word divided by minus one wraps; remainders match
them and have the sign of the dividend. -/
theorem fold_is_machine_operation (op : BinOp) {a b : Int}
    (ha : Word.least ≤ a ∧ a ≤ Word.greatest) (hb : Word.least ≤ b ∧ b ≤ Word.greatest)
    (hz : op = .div ∨ op = .rem → b ≠ 0) :
    ∃ w, op.fold a b = .ok w ∧
      w.toInt = (op.onBits (BitVec.ofInt 32 a) (BitVec.ofInt 32 b)).toInt ∧
      w.toInt = Word.wrap (op.onIntegers a b) ∧
      (op = .div →
        w.toInt = if a = Word.least ∧ b = -1 then Word.least else a.tdiv b) ∧
      (op = .rem →
        a = b * a.tdiv b + w.toInt ∧ (w.toInt = 0 ∨ w.toInt.sign = a.sign)) := by
  have hdefined : ¬ (op.divides = true ∧ b = 0) := by
    rintro ⟨hop, rfl⟩
    refine hz ?_ rfl
    cases op <;> simp_all [divides]
  have hbits : (Word.ofInt (op.onIntegers a b)).toInt =
      (op.onBits (lowWord a) (lowWord b)).toInt := by
    rw [Word.ofInt_eq]
    exact congrArg BitVec.toInt (lowWord_onIntegers op ha hb)
  refine ⟨_, (fold_eq_onIntegers op a b).trans (if_neg hdefined), hbits, Word.toInt_ofInt _, ?_, ?_⟩
  · rintro rfl
    rw [hbits, toInt_onBits_div, toInt_lowWord ha, toInt_lowWord hb]
  · rintro rfl
    have hrem := toInt_onBits_rem (lowWord a) (lowWord b)
    rw [← hbits, toInt_lowWord ha, toInt_lowWord hb] at hrem
    refine ⟨?_, hrem.2⟩
    rw [hrem.1, Int.mul_tdiv_add_tmod]

/-- The one quotient of words that is not a word. -/
theorem fold_is_machine_operation_least_by_minus_one :
    (Word.least ≤ Word.least ∧ Word.least ≤ Word.greatest) ∧
      (Word.least ≤ -1 ∧ -1 ≤ Word.greatest) ∧
      ∃ w, fold .div Word.least (-1) = .ok w ∧ w.toInt = Word.least ∧
        w.toInt = (onBits .div (BitVec.ofInt 32 Word.least) (BitVec.ofInt 32 (-1))).toInt := by
  have hleast : Word.least ≤ Word.least ∧ Word.least ≤ Word.greatest := by decide
  have hminus : Word.least ≤ -1 ∧ -1 ≤ Word.greatest := by decide
  obtain ⟨w, hw, hbits, _, hdiv, _⟩ :=
    fold_is_machine_operation .div hleast hminus (fun _ => by decide)
  exact ⟨hleast, hminus, w, hw, (hdiv rfl).trans (if_pos ⟨rfl, rfl⟩), hbits⟩

end ConstantFlow.BinOp

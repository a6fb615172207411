import ConstantFlow.Operator
import ConstantFlow.Proofs.Word

/-!
# Operators on a 32-bit machine

The operators as operations on words of 32 bits in two's complement: wrapping arithmetic, signed
division that truncates, shifts by the low five bits of the distance, operations bit by bit, and
signed comparisons. Folding two words on unbounded integers and wrapping the result gives the same
as the machine.

Main results:

* `quotient_eq_tdiv`: quotients truncate toward zero; likewise `remainder_eq_tmod`
* `ofInt_compute`: the low bits of what is computed are those of the machine
* `fold_toInt`: folding two words is what the machine does, traps included
-/

namespace ConstantFlow.BinOp

/-- The word of a condition. -/
def flag (holds : Bool) : BitVec 32 :=
  if holds then 1#32 else 0#32

/-- The bits that a machine computes. -/
def onBits (op : BinOp) (a b : BitVec 32) : BitVec 32 :=
  match op with
  | .add => a + b
  | .sub => a - b
  | .mul => a * b
  | .div => a.sdiv b
  | .rem => a.srem b
  | .shl => a <<< (b &&& 31#32)
  | .shr => a.sshiftRight' (b &&& 31#32)
  | .ushr => a >>> (b &&& 31#32)
  | .or => a ||| b
  | .and => a &&& b
  | .xor => a ^^^ b
  | .eq => flag (a == b)
  | .ne => flag (a != b)
  | .lt => flag (a.slt b)
  | .gt => flag (b.slt a)
  | .le => flag (a.sle b)
  | .ge => flag (b.sle a)

/-- The word that a machine computes; it traps on a divisor of zero. -/
def onWords (op : BinOp) (a b : Int32) : Option Int32 :=
  if op.divides = true ∧ b = 0 then none
  else some (Int32.ofBitVec (op.onBits a.toBitVec b.toBitVec))

theorem not_trap_of_onWords {op : BinOp} {a b w : Int32} (h : op.onWords a b = some w) :
    ¬ (op.divides = true ∧ b = 0) := by
  intro hz
  rw [onWords, if_pos hz] at h
  cases h

/-! ## Quotients and shift distances -/

/-- Quotients truncate toward zero. -/
theorem quotient_eq_tdiv (a b : Int) : quotient a b = a.tdiv b := by
  have hnonneg : ∀ k : Nat, ¬ Int.ofNat k < 0 := fun k => Int.not_lt.mpr (Int.natCast_nonneg k)
  have hneg : ∀ k : Nat, Int.negSucc k < 0 := Int.negSucc_lt_zero
  unfold quotient
  cases a with
  | ofNat m =>
    cases b with
    | ofNat n => exact if_pos (iff_of_false (hnonneg m) (hnonneg n))
    | negSucc n => exact if_neg fun h => hnonneg m (h.mpr (hneg n))
  | negSucc m =>
    cases b with
    | ofNat n => exact if_neg fun h => hnonneg n (h.mp (hneg m))
    | negSucc n => exact if_pos (iff_of_true (hneg m) (hneg n))

theorem remainder_eq_tmod (a b : Int) : remainder a b = a.tmod b := by
  rw [remainder, quotient_eq_tdiv, Int.tmod_def]

theorem shiftDistance_eq_emod (b : Int) : shiftDistance b = (b % 32).toNat :=
  (Word.masked_two_pow_sub_one 5 b).trans (BitVec.toNat_ofInt b)

/-- The low five bits of a word are its remainder modulo 32. -/
theorem toNat_and_lowFive (b : BitVec 32) : (b &&& 31#32).toNat = b.toNat % 32 := by
  rw [BitVec.toNat_and]
  exact Nat.and_two_pow_sub_one_eq_mod b.toNat 5

theorem shiftDistance_toInt (b : BitVec 32) :
    shiftDistance b.toInt = (b &&& 31#32).toNat := by
  rw [toNat_and_lowFive, shiftDistance_eq_emod, BitVec.toInt_eq_toNat_cond]
  split <;> omega

theorem ofInt_truth (p : Prop) [Decidable p] : BitVec.ofInt 32 (truth p) = flag (decide p) := by
  by_cases h : p <;> simp [truth, flag, h]

/-- A shift to the left of the integer is one of the word. -/
theorem ofInt_shiftLeft (a : BitVec 32) (k : Nat) :
    BitVec.ofInt 32 (a.toInt <<< k) = a <<< k := by
  have hpow : BitVec.ofNat 32 (2 ^ k) = BitVec.twoPow 32 k := by
    apply BitVec.eq_of_toNat_eq
    rw [BitVec.toNat_ofNat, BitVec.toNat_twoPow]
  rw [Int.shiftLeft_eq', BitVec.ofInt_mul, BitVec.ofInt_toInt, BitVec.ofInt_natCast, hpow,
    BitVec.shiftLeft_eq_mul_twoPow]

/-- A shift to the right of the unsigned reading fills with zeros. -/
theorem ofInt_toNat_shiftRight (a : BitVec 32) (k : Nat) :
    BitVec.ofInt 32 ((a.toNat >>> k : Nat) : Int) = a >>> k := by
  rw [BitVec.ofInt_natCast, ← BitVec.toNat_ushiftRight, BitVec.ofNat_toNat, BitVec.setWidth_eq]

/-- The low bits of the integer that an operator gives on two words are those of the machine. -/
theorem ofInt_compute (op : BinOp) (a b : BitVec 32) :
    BitVec.ofInt 32 (op.compute a.toInt b.toInt) = op.onBits a b := by
  cases op with
  | add => simp only [compute, onBits, BitVec.ofInt_add, BitVec.ofInt_toInt]
  | sub =>
    simp only [compute, onBits, Int.sub_eq_add_neg, BitVec.ofInt_add, BitVec.ofInt_neg,
      BitVec.ofInt_toInt, BitVec.sub_eq_add_neg]
  | mul => simp only [compute, onBits, BitVec.ofInt_mul, BitVec.ofInt_toInt]
  | div =>
    -- the one quotient that does not fit, of the least word by minus one, wraps on both sides
    simp only [compute, onBits, quotient_eq_tdiv]
    rw [← BitVec.toInt_inj, BitVec.toInt_ofInt, BitVec.toInt_sdiv]
  | rem =>
    simp only [compute, onBits, remainder_eq_tmod]
    rw [← BitVec.toInt_srem, BitVec.ofInt_toInt]
  | shl =>
    simp only [compute, onBits, shiftDistance_toInt, BitVec.shiftLeft_eq']
    exact ofInt_shiftLeft a _
  | shr =>
    -- a shift that keeps the sign is defined through the signed reading
    simp only [compute, onBits, shiftDistance_toInt, BitVec.sshiftRight_eq']
    rfl
  | ushr =>
    simp only [compute, onBits, shiftDistance_toInt, BitVec.ushiftRight_eq', Word.masked_mask,
      BitVec.ofInt_toInt]
    exact ofInt_toNat_shiftRight a _
  | or => simp only [compute, onBits, lowWord, BitVec.ofInt_toInt]
  | and => simp only [compute, onBits, lowWord, BitVec.ofInt_toInt]
  | xor => simp only [compute, onBits, lowWord, BitVec.ofInt_toInt]
  | eq =>
    simp only [compute, onBits, ofInt_truth, BitVec.toInt_inj]
    rfl
  | ne =>
    simp only [compute, onBits, ofInt_truth, ne_eq, BitVec.toInt_inj, decide_not]
    rfl
  | lt => simp only [compute, onBits, ofInt_truth, BitVec.slt_eq_decide]
  | gt => simp only [compute, onBits, ofInt_truth, BitVec.slt_eq_decide, gt_iff_lt]
  | le => simp only [compute, onBits, ofInt_truth, BitVec.sle_eq_decide]
  | ge => simp only [compute, onBits, ofInt_truth, BitVec.sle_eq_decide, ge_iff_le]

/-- Folding two words is what the machine does, traps included. -/
theorem fold_toInt (op : BinOp) (a b : Int32) :
    op.fold a.toInt b.toInt =
      match op.onWords a b with
      | some w => .ok w
      | none => .error .zeroDivisor := by
  have hzero : b.toInt = 0 ↔ b = 0 := Int32.toInt_inj (y := 0)
  have hword : Word.ofInt (op.compute a.toInt b.toInt) =
      Int32.ofBitVec (op.onBits a.toBitVec b.toBitVec) := by
    rw [Word.ofInt_eq]
    exact congrArg Int32.ofBitVec (ofInt_compute op a.toBitVec b.toBitVec)
  simp only [fold, onWords, hzero, hword]
  split <;> rfl

end ConstantFlow.BinOp

import ConstantFlow.Evaluation
import ConstantFlow.Proofs.Semantics.Integers

/-!
# Wrapping at every step and wrapping once

Evaluation wraps at every operation. For eight of the operators this makes no difference: the low
word of what they give on unbounded integers depends on the low words of the operands only. So an
expression of such operators, integer literals and variables known to be constants may as well be
computed over the unbounded integers, and wrapped in the end. For none of the other nine operators
this is so.

Main results:

* `lowWord_congr`: modular operators look at low words only
* `eval_eq_ofInt`: a modular expression can be computed without wrapping on the way
* `eval_wraps_once`: it can, and no other operator may be added
-/

namespace ConstantFlow

namespace BinOp

/-- The eight operators for which the low word of the result depends on the low words of the
operands only. -/
def modular : BinOp → Bool
  | .add | .sub | .mul | .shl | .ushr | .or | .and | .xor => true
  | .div | .rem | .shr | .eq | .ne | .lt | .gt | .le | .ge => false

/-! ## Low words of the operands -/

theorem emod_eq_of_lowWord {a a' : Int} (h : lowWord a = lowWord a') :
    a % 2 ^ 32 = a' % 2 ^ 32 := by
  have hnat : (a % 2 ^ 32).toNat = (a' % 2 ^ 32).toNat := by
    rw [← toNat_lowWord, h, toNat_lowWord]
  omega

/-- The low word of a shift distance says how far to shift. -/
theorem distance_eq_of_lowWord {b b' : Int} (h : lowWord b = lowWord b') : b % 32 = b' % 32 := by
  have hmod := emod_eq_of_lowWord h
  omega

theorem lowWord_add (a b : Int) : lowWord (a + b) = lowWord a + lowWord b :=
  BitVec.ofInt_add a b

theorem lowWord_mul (a b : Int) : lowWord (a * b) = lowWord a * lowWord b :=
  BitVec.ofInt_mul a b

theorem lowWord_sub (a b : Int) : lowWord (a - b) = lowWord a - lowWord b := by
  rw [Int.sub_eq_add_neg, lowWord_add, BitVec.sub_eq_add_neg]
  exact congrArg (lowWord a + ·) BitVec.ofInt_neg

/-- Operands with the same low words give results with the same low word. -/
theorem lowWord_congr {op : BinOp} (hop : op.modular = true) {a a' b b' : Int}
    (ha : lowWord a = lowWord a') (hb : lowWord b = lowWord b') :
    lowWord (op.onIntegers a b) = lowWord (op.onIntegers a' b') := by
  cases op with
  | add => simp only [onIntegers, lowWord_add, ha, hb]
  | sub => simp only [onIntegers, lowWord_sub, ha, hb]
  | mul => simp only [onIntegers, lowWord_mul, ha, hb]
  | shl => simp only [onIntegers, lowWord_mul, ha, distance_eq_of_lowWord hb]
  | ushr => simp only [onIntegers, emod_eq_of_lowWord ha, distance_eq_of_lowWord hb]
  | or => simp only [onIntegers, lowWord_lor, ha, hb]
  | and => simp only [onIntegers, lowWord_land, ha, hb]
  | xor => simp only [onIntegers, lowWord_xor, ha, hb]
  | div | rem | shr | eq | ne | lt | gt | le | ge => cases hop

/-! ## Operations on wrapped integers -/

theorem onValues_const_eq {op : BinOp} {c d : Int32} (h : ¬ (op.divides = true ∧ d = 0)) :
    op.onValues (.const c) (.const d) = .ofInt (op.onIntegers c.toInt d.toInt) := by
  have hzero : d.toInt = 0 ↔ d = 0 := Int32.toInt_inj (y := 0)
  have hfold : op.fold c.toInt d.toInt = .ok (Word.ofInt (op.onIntegers c.toInt d.toInt)) := by
    rw [fold_eq_onIntegers, if_neg]
    rwa [hzero]
  simp [onValues, h, hfold, Value.ofInt]

theorem lowWord_toInt_ofInt (n : Int) : lowWord (Word.ofInt n).toInt = lowWord n := by
  rw [Word.ofInt_eq]
  exact BitVec.ofInt_toInt

theorem not_divides_of_modular {op : BinOp} (hop : op.modular = true) : op.divides = false := by
  cases op <;> simp_all [modular, divides]

/-- A modular operator on two wrapped integers gives the wrapped result. -/
theorem onValues_ofInt {op : BinOp} (hop : op.modular = true) (m n : Int) :
    op.onValues (.ofInt m) (.ofInt n) = .ofInt (op.onIntegers m n) := by
  have hword : lowWord (op.onIntegers (Word.ofInt m).toInt (Word.ofInt n).toInt) =
      lowWord (op.onIntegers m n) :=
    lowWord_congr hop (lowWord_toInt_ofInt m) (lowWord_toInt_ofInt n)
  calc op.onValues (.ofInt m) (.ofInt n)
    _ = .ofInt (op.onIntegers (Word.ofInt m).toInt (Word.ofInt n).toInt) :=
      onValues_const_eq (by simp [not_divides_of_modular hop])
    _ = .ofInt (op.onIntegers m n) := congrArg Value.const (ofInt_congr hword)

/-- Two integers, one of them no word, for which it matters when an operator wraps. -/
def telling : BinOp → Int × Int
  | .lt | .ge => (3, 4294967299)
  | _ => (4294967299, 3)

theorem onValues_telling_ne {op : BinOp} (hop : op.modular = false) :
    op.onValues (.ofInt op.telling.1) (.ofInt op.telling.2) ≠
      .ofInt (op.onIntegers op.telling.1 op.telling.2) := by
  cases op with
  | div | rem | shr | eq | ne | lt | gt | le | ge => decide
  | add | sub | mul | shl | ushr | or | and | xor => cases hop

end BinOp

namespace Expr

/-- The expression is built from integer literals, variables that the fact binds to constants, and
modular operators. -/
def modular (f : Fact) : Expr → Bool
  | .var x => (f.get x).isConst
  | .lit _ => true
  | .binary op l r => op.modular && l.modular f && r.modular f
  | .neg _ | .call _ _ | .field _ _ => false

/-- The value of an expression over the unbounded integers, with variables at the constants that a
fact binds them to. Nothing is wrapped on the way. -/
def unwrapped? (f : Fact) : Expr → Option Int
  | .var x =>
    match f.get x with
    | .const c => some c.toInt
    | .undefined | .nac => none
  | .lit n => some n
  | .binary op l r => do
    let a ← l.unwrapped? f
    let b ← r.unwrapped? f
    if op.divides = true ∧ b = 0 then none else some (op.onIntegers a b)
  | .neg _ | .call _ _ | .field _ _ => none

/-- The evaluation of a modular expression is its value over the unbounded integers, wrapped. -/
theorem eval_eq_ofInt {f : Fact} {e : Expr} (h : e.modular f = true) :
    ∃ n, e.unwrapped? f = some n ∧ e.eval f = .ofInt n := by
  fun_induction Expr.modular f e with
  | case1 x =>
    cases hx : f.get x with
    | const c => exact ⟨c.toInt, by simp [unwrapped?, hx], by simp [eval, hx, Value.ofInt_eq]⟩
    | undefined | nac => simp [hx, Value.isConst] at h
  | case2 n => exact ⟨n, rfl, rfl⟩
  | case3 op l r ihl ihr =>
    simp only [Bool.and_eq_true] at h
    obtain ⟨a, hla, hle⟩ := ihl h.1.2
    obtain ⟨b, hrb, hre⟩ := ihr h.2
    refine ⟨op.onIntegers a b, ?_, ?_⟩
    · simp [unwrapped?, hla, hrb, BinOp.not_divides_of_modular h.1.1]
    · rw [eval, hle, hre, BinOp.onValues_ofInt h.1.1]
  | case4 | case5 | case6 => cases h

/-- A modular expression evaluates to the constant that its value over the unbounded integers wraps
to. No other operator may be added: each of them gives, on two literals, something else than the
wrapped result. -/
theorem eval_wraps_once (f : Fact) :
    (∀ e : Expr, e.modular f = true →
      ∃ n c, e.unwrapped? f = some n ∧ e.eval f = .const c ∧ c.toInt = Word.wrap n) ∧
    ∀ op : BinOp, op.modular = false →
      ∃ a b n, (Expr.binary op (.lit a) (.lit b)).unwrapped? f = some n ∧
        (Expr.binary op (.lit a) (.lit b)).eval f ≠ .ofInt n := by
  constructor
  · intro e he
    obtain ⟨n, hn, heval⟩ := eval_eq_ofInt he
    exact ⟨n, Word.ofInt n, hn, heval, Word.toInt_ofInt n⟩
  · intro op hop
    have hdefined : ¬ (op.divides = true ∧ op.telling.2 = 0) := by
      cases op <;> decide
    refine ⟨op.telling.1, op.telling.2, _, ?_, BinOp.onValues_telling_ne hop⟩
    simp [unwrapped?, hdefined]

/-! A variable known to be minus one, multiplied out of the range of words, shifted by more than the
width of a word, read without its sign, and taken out of range again. -/

namespace Spilling

def x : Var := { name := "x", type := .primitive .int }

/-- `x` is minus one. -/
def known : Fact := (Fact.empty.update x (.const (-1))).1

/-- `((x * 10000000000 << 35) >>> (x ^ 4294967290)) - 10000000000` -/
def shifted : Expr :=
  .binary .sub
    (.binary .ushr
      (.binary .shl (.binary .mul (.var x) (.lit 10000000000)) (.lit 35))
      (.binary .xor (.var x) (.lit 4294967290)))
    (.lit 10000000000)

end Spilling

open Spilling in
theorem eval_wraps_once_spilling :
    shifted.modular known = true ∧ shifted.unwrapped? known = some (-9949863168) ∧
      ∃ c, shifted.eval known = .const c ∧ c.toInt = Word.wrap (-9949863168) := by
  have hmodular : shifted.modular known = true := by decide
  have hunwrapped : shifted.unwrapped? known = some (-9949863168) := by decide
  obtain ⟨n, c, hn, heval, hc⟩ := (eval_wraps_once known).1 shifted hmodular
  rw [hunwrapped, Option.some.injEq] at hn
  exact ⟨hmodular, hunwrapped, c, heval, hn ▸ hc⟩

end Expr

end ConstantFlow

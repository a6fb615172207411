import ConstantFlow.Proofs.Fact
import ConstantFlow.Proofs.Word
import Mathlib.Order.Bounds.Basic

/-!
# Merging

Values are partially ordered, and the join of two values is their least upper bound. What a fact
says about a variable after any number of facts have been joined into it is the least upper bound of
what all of them say. It does not matter in which order they come and how often each of them does,
the fact only grows, and joining one of them once more changes nothing.

Main results:

* `Value.ofKind_le_ofKind_iff`: the order of values, in terms of what they are made of
* `isLUB_foldl_join`: joining any facts gives their least upper bound
* `foldl_join_le_foldl_join`: it is no matter in which order they come and how often
* `merging_gives_least_upper_bounds`: all of this, for values and for facts
-/

namespace ConstantFlow

/-! ## Values -/

theorem Value.ofInt_inj {m n : Int} : ofInt m = ofInt n ↔ Word.wrap m = Word.wrap n := by
  rw [ofInt_eq, ofInt_eq, const.injEq, ← Int32.toInt_inj, Word.wrap_eq_toInt, Word.wrap_eq_toInt]

/-- The order in terms of what values are made of: constants are compared after wrapping, and the
numbers of other kinds do not count. -/
theorem Value.ofKind_le_ofKind_iff {k l : Kind} {m n : Int} :
    ofKind k m ≤ ofKind l n ↔
      k = .undefined ∨ l = .nac ∨ k = .const ∧ l = .const ∧ Word.wrap m = Word.wrap n := by
  rw [← ofInt_inj, le_def]
  cases k <;> cases l <;> simp [ofKind, ofInt]

theorem Value.isLUB_join (a b : Value) : IsLUB {a, b} (a.join b) :=
  isLUB_pair

namespace Fact

/-! ## Facts -/

variable {f : Fact} {sources others : List Fact}

/-- Joining facts into another gives the least upper bound of all of them, at every variable. -/
theorem isLUB_foldl_join (hs : ∀ k ∈ sources, k.Lawful) (f : Fact) (x : Var) :
    IsLUB (insert (f.get x) {v | ∃ k ∈ sources, k.get x = v})
      ((sources.foldl Fact.join f).get x) := by
  rw [isLUB_iff_le_iff]
  intro v
  rw [get_foldl_join_le_iff hs, upperBounds_insert, Set.mem_inter_iff, Set.mem_Ici]
  refine and_congr_right fun _ => ⟨?_, fun h k hk => h ⟨k, hk, rfl⟩⟩
  rintro h _ ⟨k, hk, rfl⟩
  exact h k hk

theorem le_foldl_join (hs : ∀ k ∈ sources, k.Lawful) : f ≤ sources.foldl Fact.join f :=
  fun x => (isLUB_foldl_join hs f x).1 (Set.mem_insert _ _)

theorem source_le_foldl_join (hs : ∀ k ∈ sources, k.Lawful) {k : Fact} (hk : k ∈ sources) :
    k ≤ sources.foldl Fact.join f :=
  fun x => (isLUB_foldl_join hs f x).1 (Set.mem_insert_of_mem _ ⟨k, hk, rfl⟩)

theorem le_of_same {f g : Fact} (hf : f.Lawful) (hg : g.Lawful) (h : f.same g = true) : f ≤ g :=
  fun x => (congrFun ((same_iff hf hg).mp h) x).le

theorem same_of_le_of_le {f g : Fact} (hf : f.Lawful) (hg : g.Lawful) (hle : f ≤ g) (hge : g ≤ f) :
    f.same g = true :=
  (same_iff hf hg).mpr (funext fun x => le_antisymm (hle x) (hge x))

/-- Sources that are all among other sources give no more than those. -/
theorem foldl_join_le_foldl_join (hs : ∀ k ∈ sources, k.Lawful) (ho : ∀ k ∈ others, k.Lawful)
    (hsub : ∀ k ∈ sources, ∃ k' ∈ others, k.same k' = true) :
    sources.foldl Fact.join f ≤ others.foldl Fact.join f := by
  intro x
  rw [get_foldl_join_le_iff hs]
  refine ⟨le_foldl_join ho x, fun k hk => ?_⟩
  obtain ⟨k', hk', hsame⟩ := hsub k hk
  calc k.get x
    _ ≤ k'.get x := le_of_same (hs k hk) (ho k' hk') hsame x
    _ ≤ (others.foldl Fact.join f).get x := source_le_foldl_join ho hk' x

/-- Values are partially ordered and joins are least upper bounds, whatever numbers the values were
made with. Joining any list of facts into a fact takes the least upper bound at every variable; two
lists that hold the same facts, in any order and any number, give the same; the fact never shrinks;
and neither a fact that has been joined in already nor the result itself changes it again. -/
theorem merging_gives_least_upper_bounds {target : Fact} (ht : target.Lawful)
    {sources : List Fact} (hs : ∀ k ∈ sources, k.Lawful) :
    (∀ k l m n, Value.ofKind k m ≤ Value.ofKind l n ↔
      k = .undefined ∨ l = .nac ∨ k = .const ∧ l = .const ∧ Word.wrap m = Word.wrap n) ∧
    (∀ a : Value, a ≤ a) ∧
    (∀ a b : Value, a ≤ b → b ≤ a → a = b) ∧
    (∀ a b c : Value, a ≤ b → b ≤ c → a ≤ c) ∧
    (∀ a b : Value, IsLUB {a, b} (a.join b)) ∧
    let merged := sources.foldl Fact.join target
    (∀ x, IsLUB (insert (target.get x) {v | ∃ k ∈ sources, k.get x = v}) (merged.get x)) ∧
    (∀ others : List Fact, (∀ k ∈ others, k.Lawful) →
      (∀ k ∈ sources, ∃ k' ∈ others, k.same k' = true) →
      (∀ k' ∈ others, ∃ k ∈ sources, k'.same k = true) →
      merged.same (others.foldl Fact.join target) = true) ∧
    (∀ x, target.get x ≤ merged.get x) ∧
    (∀ k ∈ sources, merged.join k = merged) ∧
    merged.join merged = merged := by
  refine ⟨fun k l m n => Value.ofKind_le_ofKind_iff, fun a => le_refl a, fun a b => le_antisymm,
    fun a b c => le_trans, Value.isLUB_join, isLUB_foldl_join hs target, ?_, le_foldl_join hs, ?_,
    ?_⟩
  · intro others ho hsub hsup
    exact same_of_le_of_le (lawful_foldl_join ht sources) (lawful_foldl_join ht others)
      (foldl_join_le_foldl_join hs ho hsub) (foldl_join_le_foldl_join ho hs hsup)
  · intro k hk
    exact join_eq_self (hs k hk) (source_le_foldl_join hs hk)
  · exact join_eq_self (lawful_foldl_join ht sources) le_rfl

/-! Two facts that disagree about `x`, joined into a third: once with a repetition, once in the
other order. -/

namespace Disagreeing

def x : Var := { name := "x", type := .primitive .int }

def y : Var := { name := "y", type := .primitive .int }

def first : Fact := (Fact.empty.update x (.const 1)).1

def second : Fact := ((Fact.empty.update y .nac).1.update x (.const 2)).1

def target : Fact := (Fact.empty.update y (.const 3)).1

theorem lawful_target : target.Lawful := lawful_empty.update y (.const 3)

theorem lawful_sources : ∀ k ∈ [first, second, first], k.Lawful := by
  have hfirst : first.Lawful := lawful_empty.update x (.const 1)
  have hsecond : second.Lawful := (lawful_empty.update y .nac).update x (.const 2)
  simp [hfirst, hsecond]

end Disagreeing

open Disagreeing in
theorem merging_gives_least_upper_bounds_disagreeing :
    target.Lawful ∧ (∀ k ∈ [first, second, first], k.Lawful) ∧
      ([first, second, first].foldl Fact.join target).same
        ([second, first].foldl Fact.join target) = true ∧
      ([first, second, first].foldl Fact.join target).join second =
        [first, second, first].foldl Fact.join target := by
  obtain ⟨_, _, _, _, _, _, hlists, _, hagain, _⟩ :=
    merging_gives_least_upper_bounds lawful_target lawful_sources
  refine ⟨lawful_target, lawful_sources, hlists [second, first] ?_ (by decide) (by decide),
    hagain second (by simp)⟩
  intro k hk
  exact lawful_sources k (List.mem_cons_of_mem _ hk)

end Fact

end ConstantFlow

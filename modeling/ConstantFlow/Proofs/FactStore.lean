import ConstantFlow.FactStore
import ConstantFlow.Proofs.Propagation.Transfer

/-!
# Facts through any history

Whatever is done with the facts of a store, in whatever order and with whichever facts, each of
them stays lawful: it lists no variable twice and none as `undefined`. So a variable that is not
listed and one about which nothing is known are the same thing, facts that say the same are equal,
and the reports of updates, removals and overwritings are exact: they tell of a change if and only
if the fact is another one afterwards.

Main results:

* `Lawful.perform`: no action makes a fact unlawful
* `Lawful.run`: nor does any sequence of actions
* `reports_exact_through_any_history`: after any sequence of actions the next report is exact
-/

namespace ConstantFlow

/-! ## Exact reports -/

namespace Fact

theorem lawful_ofList (bindings : List (Var × Value)) : (ofList bindings).Lawful := by
  have hfold : ∀ (es : List (Var × Value)) (f : Fact), f.Lawful →
      (es.foldl (fun f e => (f.update e.1 e.2).1) f).Lawful := by
    intro es
    induction es with
    | nil => exact fun f hf => hf
    | cons e es ih => exact fun f hf => ih _ (hf.update e.1 e.2)
  exact hfold _ _ lawful_empty

/-- Lawful facts differ where they say something different. -/
theorem same_eq_false_iff {f g : Fact} (hf : f.Lawful) (hg : g.Lawful) :
    f.same g = false ↔ ∃ x, f.get x ≠ g.get x := by
  rw [← Bool.not_eq_true, same_iff hf hg, funext_iff, not_forall]

section Reports

variable {f : Fact} (hf : f.Lawful)

include hf

theorem update_reports_iff (x : Var) (v : Value) :
    (f.update x v).2 = true ↔ (f.update x v).1.same f = false := by
  have hflag : (f.update x v).2 = true ↔ f.get x ≠ v := by
    by_cases hv : v = .undefined
    · rw [hv, ← hf.contains_iff]
      rfl
    · exact update_changed_iff f x hv
  rw [hflag, same_eq_false_iff (hf.update x v) hf]
  constructor
  · intro hne
    refine ⟨x, ?_⟩
    rw [get_update, if_pos rfl]
    exact Ne.symm hne
  · rintro ⟨y, hy⟩ heq
    -- only `x` is bound anew
    rw [get_update] at hy
    split at hy
    case isTrue hyx => exact hy (hyx ▸ heq.symm)
    case isFalse => exact hy rfl

/-- A removal is an update to `undefined` that returns the old value. -/
theorem remove_reports_iff (x : Var) :
    (f.remove x).2.isSome = true ↔ (f.remove x).1.same f = false :=
  update_reports_iff hf x .undefined

theorem overwrite_reports_iff {source : Fact} (hs : source.Lawful) :
    (f.overwrite source).2 = true ↔ (f.overwrite source).1.same f = false := by
  rw [overwrite_changed_iff f hs, same_eq_false_iff (hf.overwrite source) hf]
  refine exists_congr fun x => ?_
  rw [get_overwrite f hs]
  by_cases hx : source.get x = .undefined
  · simp [hx]
  · simp [hx, eq_comm]

theorem overwrite_self : f.overwrite f = (f, false) := by
  have hfact : (f.overwrite f).1 = f := overwrite_eq_self hf fun _ _ => rfl
  have hflag : ¬ (f.overwrite f).2 = true := by simp [overwrite_changed_iff f hf]
  exact Prod.ext hfact (Bool.eq_false_of_not_eq_true hflag)

end Reports

end Fact

theorem Propagation.lawful_transferInPlace {f : Fact} (hf : f.Lawful) (c : Stmt) :
    (transferInPlace c f).1.Lawful := by
  unfold transferInPlace
  split
  · exact (hf.erase _).update _ _
  · exact hf

namespace FactStore

variable {s s' : FactStore} {name : String} {f : Fact}

/-! ## Lawful stores -/

/-- All facts of the store are lawful. -/
def Lawful (s : FactStore) : Prop :=
  ∀ e ∈ s.facts, e.2.Lawful

theorem lawful_empty : FactStore.empty.Lawful := by
  simp [Lawful, FactStore.empty]

theorem Lawful.get? (hs : s.Lawful) (h : s.get? name = some f) : f.Lawful :=
  hs (name, f) (Entries.mem_of_lookup h)

theorem Lawful.set (hs : s.Lawful) (hf : f.Lawful) : (s.set name f).Lawful := by
  intro e he
  rcases Entries.mem_put he with rfl | he
  · exact hf
  · exact hs e he

theorem set_get? (h : s.get? name = some f) : s.set name f = s := by
  simp only [FactStore.set, Entries.put_of_mem h]

/-- An action gives one name a fact, which is lawful if those that it reads are. -/
theorem set_of_perform (hs : s.Lawful) {a : Action} {r : Answer}
    (h : s.perform a = some (s', r)) : ∃ name f, f.Lawful ∧ s' = s.set name f := by
  cases a with
  | make name bindings =>
    cases h
    exact ⟨name, _, Fact.lawful_ofList bindings, rfl⟩
  | update name x v =>
    obtain ⟨f, hf, h⟩ := Option.bind_eq_some_iff.mp h
    cases h
    exact ⟨name, _, (hs.get? hf).update x v, rfl⟩
  | remove name x =>
    obtain ⟨f, hf, h⟩ := Option.bind_eq_some_iff.mp h
    cases h
    exact ⟨name, _, (hs.get? hf).erase x, rfl⟩
  | overwrite name source =>
    obtain ⟨f, hf, h⟩ := Option.bind_eq_some_iff.mp h
    obtain ⟨k, hk, h⟩ := Option.bind_eq_some_iff.mp h
    cases h
    exact ⟨name, _, (hs.get? hf).overwrite k, rfl⟩
  | copy name target =>
    obtain ⟨f, hf, h⟩ := Option.bind_eq_some_iff.mp h
    cases h
    exact ⟨target, _, hs.get? hf, rfl⟩
  | clear name =>
    obtain ⟨f, hf, h⟩ := Option.bind_eq_some_iff.mp h
    cases h
    exact ⟨name, _, Fact.lawful_empty, rfl⟩
  | join name source =>
    obtain ⟨f, hf, h⟩ := Option.bind_eq_some_iff.mp h
    obtain ⟨k, hk, h⟩ := Option.bind_eq_some_iff.mp h
    cases h
    exact ⟨name, _, (hs.get? hf).join k, rfl⟩
  | transfer code input output =>
    obtain ⟨f, hf, h⟩ := Option.bind_eq_some_iff.mp h
    obtain ⟨k, hk, h⟩ := Option.bind_eq_some_iff.mp h
    by_cases hio : input = output
    · rw [if_pos hio] at h
      cases h
      exact ⟨output, _, Propagation.lawful_transferInPlace (hs.get? hf) code, rfl⟩
    · rw [if_neg hio] at h
      cases h
      exact ⟨output, _, Propagation.lawful_transfer (hs.get? hk) code f, rfl⟩

theorem Lawful.perform (hs : s.Lawful) {a : Action} {r : Answer}
    (h : s.perform a = some (s', r)) : s'.Lawful := by
  obtain ⟨name, f, hf, rfl⟩ := set_of_perform hs h
  exact hs.set hf

theorem Lawful.run (hs : s.Lawful) {actions : List Action} (h : s.run actions = some s') :
    s'.Lawful := by
  induction actions generalizing s with
  | nil =>
    cases h
    exact hs
  | cons a actions ih =>
    obtain ⟨next, hnext, h⟩ := Option.bind_eq_some_iff.mp h
    exact ih (hs.perform hnext) h

/-! ## Reports of actions -/

theorem perform_update (h : s.get? name = some f) (x : Var) (v : Value) :
    s.perform (.update name x v) =
      some (s.set name (f.update x v).1, .changed (f.update x v).2) := by
  simp only [FactStore.perform, h]
  rfl

theorem perform_remove (h : s.get? name = some f) (x : Var) :
    s.perform (.remove name x) = some (s.set name (f.remove x).1, .removed (f.remove x).2) := by
  simp only [FactStore.perform, h]
  rfl

theorem perform_overwrite {source : String} {k : Fact} (h : s.get? name = some f)
    (hk : s.get? source = some k) :
    s.perform (.overwrite name source) =
      some (s.set name (f.overwrite k).1, .changed (f.overwrite k).2) := by
  simp only [FactStore.perform, h, hk]
  rfl

theorem perform_join {source : String} {k : Fact} (h : s.get? name = some f)
    (hk : s.get? source = some k) :
    s.perform (.join name source) = some (s.set name (f.join k), .done) := by
  simp only [FactStore.perform, h, hk]
  rfl

/-- After any actions: a fact lists no variable twice and none as `undefined`, and facts are equal
exactly if they say the same about every variable. An update, a removal and an overwriting succeed,
set what they should, and report a change exactly if the fact is not equal to what it was. A fact
that is overwritten with itself or joined into itself stays as it is. -/
theorem reports_exact_through_any_history {actions : List Action} {s : FactStore}
    (h : FactStore.empty.run actions = some s) :
    (∀ name f, s.get? name = some f → f.keys.Nodup ∧ ∀ e ∈ f.entries, e.2 ≠ .undefined) ∧
    (∀ name other f k, s.get? name = some f → s.get? other = some k →
      (f.same k = true ↔ ∀ x, f.get x = k.get x)) ∧
    (∀ name f x v, s.get? name = some f → ∃ f' changed,
      s.perform (.update name x v) = some (s.set name f', .changed changed) ∧
        (∀ y, f'.get y = if y = x then v else f.get y) ∧
          (changed = true ↔ f'.same f = false)) ∧
    (∀ name f x, s.get? name = some f → ∃ f' old,
      s.perform (.remove name x) = some (s.set name f', .removed old) ∧
        (∀ y, f'.get y = if y = x then .undefined else f.get y) ∧
          (old.isSome = true ↔ f'.same f = false)) ∧
    (∀ name source f k, s.get? name = some f → s.get? source = some k → ∃ f' changed,
      s.perform (.overwrite name source) = some (s.set name f', .changed changed) ∧
        (∀ y, f'.get y = if k.get y = .undefined then f.get y else k.get y) ∧
          (changed = true ↔ f'.same f = false)) ∧
    (∀ name f, s.get? name = some f →
      s.perform (.overwrite name name) = some (s, .changed false) ∧
        s.perform (.join name name) = some (s, .done)) := by
  have hs : s.Lawful := Lawful.run lawful_empty h
  refine ⟨?_, ?_, ?_, ?_, ?_, ?_⟩
  · intro name f hf
    exact ⟨(hs.get? hf).nodup, (hs.get? hf).defined⟩
  · intro name other f k hf hk
    rw [Fact.same_iff (hs.get? hf) (hs.get? hk), funext_iff]
  · intro name f x v hf
    exact ⟨_, _, perform_update hf x v, fun y => Fact.get_update f x y v,
      Fact.update_reports_iff (hs.get? hf) x v⟩
  · intro name f x hf
    exact ⟨_, _, perform_remove hf x, Fact.get_erase f x, Fact.remove_reports_iff (hs.get? hf) x⟩
  · intro name source f k hf hk
    exact ⟨_, _, perform_overwrite hf hk, Fact.get_overwrite f (hs.get? hk),
      Fact.overwrite_reports_iff (hs.get? hf) (hs.get? hk)⟩
  · intro name f hf
    rw [perform_overwrite hf hf, perform_join hf hf, Fact.overwrite_self (hs.get? hf),
      Fact.join_eq_self (hs.get? hf) le_rfl, set_get? hf]
    exact ⟨rfl, rfl⟩

/-! A fact is made with a variable that is bound twice and one that is `undefined`; a copy of it
goes another way, is joined back into it, and the outcome is transferred in place. -/

namespace Entangled

def x : Var := { name := "x", type := .primitive .int }

def y : Var := { name := "y", type := .primitive .int }

def actions : List Action :=
  [.make "f" [(x, .nac), (y, .undefined), (x, .const 1)], .copy "f" "g", .update "g" x (.const 2),
    .update "g" y (.const 3), .join "f" "g", .transfer (.assign (.var y) (.var y)) "f" "f",
    .overwrite "g" "f", .remove "g" y]

def reached : FactStore where
  facts := [("f", ⟨[(x, .nac)]⟩), ("g", ⟨[(x, .nac)]⟩)]

theorem run_actions : FactStore.empty.run actions = some reached := by decide

end Entangled

open Entangled in
theorem reports_exact_through_any_history_entangled :
    FactStore.empty.run actions = some reached ∧
      reached.get? "f" = some ⟨[(x, .nac)]⟩ ∧ reached.get? "g" = some ⟨[(x, .nac)]⟩ ∧
      reached.perform (.overwrite "f" "f") = some (reached, .changed false) ∧
      ∃ f' changed,
        reached.perform (.overwrite "f" "g") = some (reached.set "f" f', .changed changed) ∧
          (changed = true ↔ f'.same ⟨[(x, .nac)]⟩ = false) := by
  obtain ⟨_, _, _, _, hover, hself⟩ := reports_exact_through_any_history run_actions
  have hf : reached.get? "f" = some ⟨[(x, .nac)]⟩ := rfl
  have hg : reached.get? "g" = some ⟨[(x, .nac)]⟩ := rfl
  obtain ⟨f', changed, hperform, _, hexact⟩ := hover "f" "g" _ _ hf hg
  exact ⟨run_actions, hf, hg, (hself "f" _ hf).1, f', changed, hperform, hexact⟩

end FactStore

end ConstantFlow

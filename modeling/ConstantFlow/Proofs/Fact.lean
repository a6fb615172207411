import ConstantFlow.Fact
import ConstantFlow.Proofs.Value
import Mathlib.Data.List.Nodup
import Mathlib.Data.List.Perm.Subperm
import Mathlib.Order.BoundedOrder.Lattice

/-!
# Facts as maps

A lawful fact lists no variable twice and none as `undefined`. The operations keep facts lawful,
and what they do is told by the function `Fact.get`: a join takes the least upper bound at every
variable, and an overwriting fact wins wherever it knows something. Facts are ordered by what they
say about every variable.

Main results:

* `Lawful.update`: the operations keep facts lawful; likewise `Lawful.join`, `Lawful.overwrite`
* `get_join`: a join takes the least upper bound at every variable
* `get_overwrite`: an overwriting fact wins wherever it knows something
* `same_iff`: facts are the same exactly if they say the same about every variable
* `overwrite_changed_iff`: when overwriting reports a change
-/

namespace ConstantFlow

/-! ## Entries with distinct keys -/

namespace Entries

variable {α β : Type} [DecidableEq α]

theorem mem_of_lookup {es : List (α × β)} {k : α} {b : β} (h : es.lookup k = some b) :
    (k, b) ∈ es := by
  rcases List.lookup_eq_some_iff.mp h with ⟨l, r, rfl, _⟩
  simp

theorem lookup_of_mem {es : List (α × β)} (hd : (es.map Prod.fst).Nodup) {k : α} {b : β}
    (h : (k, b) ∈ es) : es.lookup k = some b := by
  induction es with
  | nil => cases h
  | cons e es ih =>
    rw [List.map_cons, List.nodup_cons] at hd
    rw [lookup_entry]
    rcases List.mem_cons.mp h with rfl | h
    · exact if_pos rfl
    · have hne : k ≠ e.1 := fun hk => hd.1 (hk ▸ List.mem_map_of_mem h)
      rw [if_neg hne]
      exact ih hd.2 h

theorem lookup_eq_none_of_not_mem {es : List (α × β)} {k : α} (h : k ∉ es.map Prod.fst) :
    es.lookup k = none := by
  cases hl : es.lookup k with
  | none => rfl
  | some b => exact absurd (List.mem_map_of_mem (mem_of_lookup hl)) h

theorem mem_put {a : α} {b : β} {es : List (α × β)} {e : α × β} (h : e ∈ put a b es) :
    e = (a, b) ∨ e ∈ es := by
  induction es with
  | nil => exact Or.inl (List.mem_singleton.mp h)
  | cons d es ih =>
    simp only [put] at h
    split at h
    · rcases List.mem_cons.mp h with h | h
      · exact Or.inl h
      · exact Or.inr (List.mem_cons_of_mem _ h)
    · rcases List.mem_cons.mp h with h | h
      · exact Or.inr (h ▸ List.mem_cons_self)
      · exact (ih h).imp_right (List.mem_cons_of_mem _)

theorem nodup_put {a : α} {b : β} {es : List (α × β)} (hd : (es.map Prod.fst).Nodup) :
    ((put a b es).map Prod.fst).Nodup := by
  induction es with
  | nil => simp [put]
  | cons d es ih =>
    rw [List.map_cons, List.nodup_cons] at hd
    simp only [put]
    split
    case isTrue h =>
      rw [List.map_cons, List.nodup_cons]
      exact ⟨h ▸ hd.1, hd.2⟩
    case isFalse h =>
      rw [List.map_cons, List.nodup_cons]
      refine ⟨fun hm => ?_, ih hd.2⟩
      rcases List.mem_map.mp hm with ⟨e, he, hed⟩
      rcases mem_put he with rfl | he
      · exact h hed.symm
      · exact hd.1 (hed ▸ List.mem_map_of_mem he)

/-- Putting what is there already changes nothing. -/
theorem put_of_mem {a : α} {b : β} {es : List (α × β)} (h : es.lookup a = some b) :
    put a b es = es := by
  induction es with
  | nil => cases h
  | cons d es ih =>
    rw [lookup_entry] at h
    simp only [put]
    by_cases hd : a = d.1
    · rw [if_pos hd, Option.some.injEq] at h
      rw [if_pos hd.symm, hd, ← h]
    · rw [if_neg hd] at h
      rw [if_neg (Ne.symm hd), ih h]

theorem put_of_not_mem {a : α} {es : List (α × β)} (h : a ∉ es.map Prod.fst) (b : β) :
    put a b es = es ++ [(a, b)] := by
  induction es with
  | nil => rfl
  | cons e es ih =>
    rw [List.map_cons, List.mem_cons, not_or] at h
    rw [put, if_neg (Ne.symm h.1), ih h.2, List.cons_append]

/-- Putting a key that is there keeps all keys where they are. -/
theorem map_fst_put_of_mem {a : α} {es : List (α × β)} (h : a ∈ es.map Prod.fst) (b : β) :
    (put a b es).map Prod.fst = es.map Prod.fst := by
  induction es with
  | nil => cases h
  | cons e es ih =>
    rw [put]
    split
    case isTrue he => rw [List.map_cons, List.map_cons, he]
    case isFalse he =>
      rw [List.map_cons, List.mem_cons] at h
      rw [List.map_cons, List.map_cons, ih (h.resolve_left (Ne.symm he))]

/-- Putting a key does not matter once the key is filtered out. -/
theorem filter_put_self (x : α) (b : β) (es : List (α × β)) :
    (put x b es).filter (fun e => e.1 ≠ x) = es.filter fun e => e.1 ≠ x := by
  induction es with
  | nil => simp [put]
  | cons d es ih =>
    simp only [put]
    split
    case isTrue h => simp [h]
    case isFalse h => rw [List.filter_cons, ih, List.filter_cons]

theorem filter_put_of_ne {a x : α} (h : a ≠ x) (b : β) (es : List (α × β)) :
    (put a b es).filter (fun e => e.1 ≠ x) = put a b (es.filter fun e => e.1 ≠ x) := by
  induction es with
  | nil => simp [put, h]
  | cons d es ih =>
    by_cases hx : d.1 = x
    · have hne : d.1 ≠ a := fun hd => h (hd.symm.trans hx)
      rw [put, if_neg hne, List.filter_cons_of_neg (by simp [hx]),
        List.filter_cons_of_neg (by simp [hx]), ih]
    · rw [List.filter_cons_of_pos (a := d) (by simp [hx])]
      by_cases ha : d.1 = a
      · rw [put, if_pos ha, put, if_pos ha, List.filter_cons_of_pos (by simp [h])]
      · rw [put, if_neg ha, put, if_neg ha, List.filter_cons_of_pos (by simp [hx]), ih]

end Entries

namespace Fact

/-! ## Lawful facts -/

/-- No variable is listed twice, and none is listed as `undefined`. -/
structure Lawful (f : Fact) : Prop where
  nodup : (f.entries.map Prod.fst).Nodup
  defined : ∀ e ∈ f.entries, e.2 ≠ .undefined

theorem lawful_empty : empty.Lawful where
  nodup := List.nodup_nil
  defined := fun _ h => nomatch h

/-- The first entry of a lawful fact says something, about a variable that is not listed again. -/
theorem Lawful.of_cons {e : Var × Value} {es : List (Var × Value)} (h : Lawful ⟨e :: es⟩) :
    e.2 ≠ .undefined ∧ es.lookup e.1 = none ∧ Lawful ⟨es⟩ := by
  have hd := List.nodup_cons.mp (List.map_cons ▸ h.nodup)
  refine ⟨h.defined e List.mem_cons_self, Entries.lookup_eq_none_of_not_mem hd.1, hd.2, ?_⟩
  intro d hm
  exact h.defined d (List.mem_cons_of_mem _ hm)

theorem Lawful.get_of_mem {f : Fact} (hf : f.Lawful) {e : Var × Value} (he : e ∈ f.entries) :
    f.get e.1 = e.2 := by
  have h : f.entries.lookup e.1 = some e.2 := Entries.lookup_of_mem hf.nodup he
  simp only [get, get?, h, Option.getD_some]

/-- A lawful fact lists exactly the variables about which it says something. -/
theorem Lawful.get?_eq {f : Fact} (hf : f.Lawful) (x : Var) :
    f.get? x = if f.get x = .undefined then none else some (f.get x) := by
  cases h : f.get? x with
  | none =>
    have hx : f.get x = .undefined := by simp [get, h]
    rw [if_pos hx]
  | some v =>
    have hx : f.get x = v := by simp [get, h]
    have hv : v ≠ .undefined := hf.defined (x, v) (Entries.mem_of_lookup h)
    rw [hx, if_neg hv]

/-- A lawful fact binds the variables about which it says something. -/
theorem Lawful.contains_iff {f : Fact} (hf : f.Lawful) {x : Var} :
    f.contains x = true ↔ f.get x ≠ .undefined := by
  rw [contains, hf.get?_eq]
  split <;> simp_all

/-- Where a fact says something, it has an entry that says so. -/
theorem mem_of_get {f : Fact} {x : Var} (h : f.get x ≠ .undefined) :
    (x, f.get x) ∈ f.entries := by
  simp only [get] at h ⊢
  cases hx : f.get? x with
  | none => simp [hx] at h
  | some v => exact Entries.mem_of_lookup hx

theorem get_of_not_mem_keys {f : Fact} {x : Var} (h : x ∉ f.keys) : f.get x = .undefined := by
  by_contra hne
  exact h (List.mem_map_of_mem (mem_of_get hne))

theorem Lawful.mem_entries_iff {f : Fact} (hf : f.Lawful) {e : Var × Value} :
    e ∈ f.entries ↔ e.2 ≠ .undefined ∧ f.get e.1 = e.2 := by
  constructor
  · intro he
    exact ⟨hf.defined e he, hf.get_of_mem he⟩
  · rintro ⟨hd, he⟩
    have hm : (e.1, f.get e.1) ∈ f.entries := mem_of_get (he ▸ hd)
    rwa [he] at hm

theorem Lawful.erase {f : Fact} (hf : f.Lawful) (x : Var) : (f.erase x).Lawful where
  nodup := hf.nodup.sublist (List.filter_sublist.map Prod.fst)
  defined := fun e he => hf.defined e (List.mem_of_mem_filter he)

theorem Lawful.update {f : Fact} (hf : f.Lawful) (x : Var) (v : Value) :
    (f.update x v).1.Lawful := by
  by_cases hv : v = .undefined
  · simp only [Fact.update, if_pos hv]
    exact hf.erase x
  · simp only [Fact.update, if_neg hv]
    refine ⟨Entries.nodup_put hf.nodup, fun e he => ?_⟩
    rcases Entries.mem_put he with rfl | he
    · exact hv
    · exact hf.defined e he

/-- Two lawful facts are equal as maps exactly if they say the same about every variable. -/
theorem same_iff {f g : Fact} (hf : f.Lawful) (hg : g.Lawful) :
    f.same g = true ↔ f.get = g.get := by
  have hfd : f.entries.Nodup := List.Nodup.of_map _ hf.nodup
  have hgd : g.entries.Nodup := List.Nodup.of_map _ hg.nodup
  simp only [same, size, Bool.and_eq_true, beq_iff_eq, List.all_eq_true]
  constructor
  · rintro ⟨hlen, hall⟩
    have hsub : f.entries ⊆ g.entries := fun e he => Entries.mem_of_lookup (hall e he)
    have hperm : f.entries.Perm g.entries :=
      (hfd.subperm hsub).perm_of_length_le hlen.ge
    funext x
    by_cases hx : g.get x = .undefined
    · -- an entry of `f` about `x` would be one of `g`
      by_contra hne
      have hfx : f.get x ≠ .undefined := fun h => hne (h.trans hx.symm)
      have hm := hg.get_of_mem (hsub (mem_of_get hfx))
      exact hfx (hm.symm.trans hx)
    · exact hf.get_of_mem (hperm.mem_iff.mpr (mem_of_get hx))
  · intro h
    have hperm : f.entries.Perm g.entries := by
      rw [List.perm_ext_iff_of_nodup hfd hgd]
      intro e
      rw [hf.mem_entries_iff, hg.mem_entries_iff, h]
    refine ⟨hperm.length_eq, fun e he => ?_⟩
    exact Entries.lookup_of_mem hg.nodup (hperm.mem_iff.mp he)

/-! ## Forgetting a variable -/

theorem erase_erase (f : Fact) (x : Var) : (f.erase x).erase x = f.erase x := by
  simp [erase]

theorem erase_comm (f : Fact) (x y : Var) : (f.erase x).erase y = (f.erase y).erase x := by
  simp only [erase, List.filter_filter, Bool.and_comm]

theorem erase_update_self (f : Fact) (x : Var) (v : Value) :
    (f.update x v).1.erase x = f.erase x := by
  by_cases hv : v = .undefined
  · simp only [update, if_pos hv, erase_erase]
  · simp only [update, if_neg hv, erase, Entries.filter_put_self]

theorem erase_update_of_ne (f : Fact) {x y : Var} (h : y ≠ x) (v : Value) :
    (f.update y v).1.erase x = ((f.erase x).update y v).1 := by
  by_cases hv : v = .undefined
  · simp only [update, if_pos hv]
    exact erase_comm f y x
  · simp only [update, if_neg hv, erase, Entries.filter_put_of_ne h]

/-! ## Order -/

/-- A fact is below another if it is so at every variable. -/
instance : Preorder Fact :=
  Preorder.lift get

/-- A fact grows when one of its variables does. -/
theorem le_update {f : Fact} {x : Var} {v : Value} (h : f.get x ≤ v) : f ≤ (f.update x v).1 := by
  intro y
  rw [get_update]
  by_cases hy : y = x
  · rw [if_pos hy, hy]
    exact h
  · rw [if_neg hy]

/-- The fact, extended by variables that may hold anything. -/
def withNac (f : Fact) (xs : List Var) : Fact :=
  xs.foldl (fun f x => (f.update x .nac).1) f

theorem Lawful.withNac {f : Fact} (hf : f.Lawful) (xs : List Var) : (f.withNac xs).Lawful := by
  induction xs generalizing f with
  | nil => exact hf
  | cons x xs ih => exact ih (hf.update x .nac)

theorem get_withNac (f : Fact) (xs : List Var) (y : Var) :
    (f.withNac xs).get y = if y ∈ xs then .nac else f.get y := by
  induction xs generalizing f with
  | nil => rfl
  | cons x xs ih =>
    have hstep : f.withNac (x :: xs) = (f.update x .nac).1.withNac xs := rfl
    rw [hstep, ih, get_update]
    by_cases hy : y ∈ xs
    · simp [hy]
    · simp [hy]

/-! ## Joins -/

theorem Lawful.join {f : Fact} (hf : f.Lawful) (source : Fact) : (f.join source).Lawful := by
  simp only [Fact.join]
  induction source.entries generalizing f with
  | nil => exact hf
  | cons e es ih => exact ih (hf.update _ _)

/-- A join takes the least upper bound at every variable. -/
theorem get_join (f : Fact) {source : Fact} (hs : source.Lawful) (x : Var) :
    (f.join source).get x = f.get x ⊔ source.get x := by
  rcases source with ⟨es⟩
  show (es.foldl _ f).get x = f.get x ⊔ (es.lookup x).getD .undefined
  induction es generalizing f with
  | nil => exact (sup_bot_eq (f.get x)).symm
  | cons e es ih =>
    rcases hs.of_cons with ⟨_, hnone, hes⟩
    rw [List.foldl_cons, ih _ hes, get_update, Entries.lookup_entry]
    by_cases hx : x = e.1
    · -- the rest of the source does not list `x` again
      rw [if_pos hx, if_pos hx, hx, hnone, Value.join_eq_sup]
      exact (sup_bot_eq _).trans (sup_comm _ _)
    · rw [if_neg hx, if_neg hx]

/-- Binding a variable to what is known of it leaves the fact as it is. -/
theorem update_get_eq_self {f : Fact} {x : Var} (h : f.get x ≠ .undefined) :
    (f.update x (f.get x)).1 = f := by
  have hx : f.entries.lookup x = some (f.get x) := by
    simp only [get, get?] at h ⊢
    cases hl : f.entries.lookup x with
    | none => simp [hl] at h
    | some v => rfl
  simp only [update, if_neg h, Entries.put_of_mem hx]

/-- Joining in what is known already leaves the fact as it is, the order of its entries
included. -/
theorem join_eq_self {f source : Fact} (hs : source.Lawful) (h : source ≤ f) :
    f.join source = f := by
  have hle : ∀ e ∈ source.entries, e.2 ≠ .undefined ∧ e.2 ≤ f.get e.1 := by
    intro e he
    exact ⟨hs.defined e he, hs.get_of_mem he ▸ h e.1⟩
  rcases source with ⟨es⟩
  show es.foldl _ f = f
  clear hs h
  induction es with
  | nil => rfl
  | cons e es ih =>
    have he := hle e List.mem_cons_self
    have hval : e.2.join (f.get e.1) = f.get e.1 := sup_eq_right.mpr he.2
    -- above something that is known there is nothing unknown
    have hdef : f.get e.1 ≠ .undefined := by
      intro h0
      rw [h0] at he
      exact he.1 (le_antisymm he.2 (Value.undefined_le _))
    rw [List.foldl_cons, hval, update_get_eq_self hdef]
    exact ih fun d hd => hle d (List.mem_cons_of_mem _ hd)

theorem lawful_foldl_join {f : Fact} (hf : f.Lawful) (sources : List Fact) :
    (sources.foldl Fact.join f).Lawful := by
  induction sources generalizing f with
  | nil => exact hf
  | cons k sources ih => exact ih (hf.join k)

/-- Joining several facts, one after the other, gives their least upper bound at every variable. -/
theorem get_foldl_join_le_iff {sources : List Fact} (hs : ∀ k ∈ sources, k.Lawful) {f : Fact}
    {x : Var} {v : Value} :
    (sources.foldl Fact.join f).get x ≤ v ↔ f.get x ≤ v ∧ ∀ k ∈ sources, k.get x ≤ v := by
  induction sources generalizing f with
  | nil => simp
  | cons k sources ih =>
    have hk := hs k List.mem_cons_self
    have hrest : ∀ j ∈ sources, j.Lawful := fun j hj => hs j (List.mem_cons_of_mem _ hj)
    rw [List.foldl_cons, ih hrest, get_join f hk, sup_le_iff, List.forall_mem_cons, and_assoc]

/-- Joining in facts that are known already leaves the target as it is. -/
theorem foldl_join_eq_self {sources : List Fact} (hs : ∀ k ∈ sources, k.Lawful) {f : Fact}
    (h : ∀ k ∈ sources, k ≤ f) : sources.foldl Fact.join f = f := by
  induction sources with
  | nil => rfl
  | cons k sources ih =>
    rw [List.foldl_cons, join_eq_self (hs k List.mem_cons_self) (h k List.mem_cons_self)]
    exact ih (fun j hj => hs j (List.mem_cons_of_mem _ hj)) fun j hj =>
      h j (List.mem_cons_of_mem _ hj)

/-! ## Overwriting -/

/-- The flag of an overwriting is gathered on the way and never lost. -/
theorem foldl_update_flag (es : List (Var × Value)) (f : Fact) (b : Bool) :
    es.foldl (fun (acc : Fact × Bool) e =>
        ((acc.1.update e.1 e.2).1, acc.2 || (acc.1.update e.1 e.2).2)) (f, b) =
      ((f.overwrite ⟨es⟩).1, b || (f.overwrite ⟨es⟩).2) := by
  induction es generalizing f b with
  | nil => simp [overwrite]
  | cons e es ih =>
    have hcons : f.overwrite ⟨e :: es⟩ = _ := ih (f.update e.1 e.2).1 (f.update e.1 e.2).2
    rw [hcons, List.foldl_cons, ih, Bool.or_assoc]

theorem overwrite_cons (f : Fact) (e : Var × Value) (es : List (Var × Value)) :
    f.overwrite ⟨e :: es⟩ =
      (((f.update e.1 e.2).1.overwrite ⟨es⟩).1,
        (f.update e.1 e.2).2 || ((f.update e.1 e.2).1.overwrite ⟨es⟩).2) := by
  rw [← foldl_update_flag]
  rfl

theorem Lawful.overwrite {f : Fact} (hf : f.Lawful) (source : Fact) :
    (f.overwrite source).1.Lawful := by
  rcases source with ⟨es⟩
  induction es generalizing f with
  | nil => exact hf
  | cons e es ih =>
    rw [overwrite_cons]
    exact ih (hf.update e.1 e.2)

/-- An overwriting fact wins wherever it says something. -/
theorem get_overwrite (f : Fact) {source : Fact} (hs : source.Lawful) (x : Var) :
    (f.overwrite source).1.get x =
      if source.get x = .undefined then f.get x else source.get x := by
  rcases source with ⟨es⟩
  induction es generalizing f with
  | nil => rfl
  | cons e es ih =>
    rcases hs.of_cons with ⟨hdef, hnone, hes⟩
    rw [overwrite_cons]
    simp only [ih _ hes, get_update]
    by_cases hx : x = e.1
    · have hrest : get ⟨es⟩ x = .undefined := by simp [get, get?, hx, hnone]
      have hall : get ⟨e :: es⟩ x = e.2 := by
        simp [get, get?, Entries.lookup_entry, hx]
      rw [hrest, hall, if_pos rfl, if_pos hx, if_neg hdef]
    · have hrest : get ⟨e :: es⟩ x = get ⟨es⟩ x := by
        simp [get, get?, Entries.lookup_entry, hx]
      rw [hrest, if_neg hx]

/-- A variable may as well be forgotten before a fact is overwritten, in both facts. -/
theorem erase_overwrite (f source : Fact) (x : Var) :
    (f.overwrite source).1.erase x = ((f.erase x).overwrite (source.erase x)).1 := by
  rcases source with ⟨es⟩
  induction es generalizing f with
  | nil => rfl
  | cons e es ih =>
    rw [overwrite_cons, ih]
    by_cases he : e.1 = x
    · have hskip : erase ⟨e :: es⟩ x = erase ⟨es⟩ x := by simp [erase, he]
      rw [hskip, ← he, erase_update_self]
    · have hkeep : erase ⟨e :: es⟩ x = ⟨e :: (erase ⟨es⟩ x).entries⟩ := by simp [erase, he]
      rw [hkeep, overwrite_cons, erase_update_of_ne f he]

/-- Overwriting with what is known already leaves the fact as it is, the order of its entries
included. -/
theorem overwrite_eq_self {f source : Fact} (hs : source.Lawful)
    (h : ∀ x, source.get x ≠ .undefined → f.get x = source.get x) :
    (f.overwrite source).1 = f := by
  have hknown : ∀ e ∈ source.entries, e.2 ≠ .undefined ∧ f.get e.1 = e.2 := by
    intro e he
    have hget := hs.mem_entries_iff.mp he
    exact ⟨hget.1, (h e.1 (hget.2 ▸ hget.1)).trans hget.2⟩
  rcases source with ⟨es⟩
  clear hs h
  induction es with
  | nil => rfl
  | cons e es ih =>
    obtain ⟨hdef, hget⟩ := hknown e List.mem_cons_self
    have hsame : (f.update e.1 e.2).1 = f := by
      rw [← hget]
      exact update_get_eq_self (hget ▸ hdef)
    rw [overwrite_cons, hsame]
    exact ih fun d hd => hknown d (List.mem_cons_of_mem _ hd)

/-- Overwriting a second time changes nothing. -/
theorem overwrite_overwrite (f : Fact) {source : Fact} (hs : source.Lawful) :
    ((f.overwrite source).1.overwrite source).1 = (f.overwrite source).1 := by
  refine overwrite_eq_self hs fun x hx => ?_
  rw [get_overwrite f hs, if_neg hx]

theorem update_changed_iff (f : Fact) (x : Var) {v : Value} (hv : v ≠ .undefined) :
    (f.update x v).2 = true ↔ f.get x ≠ v := by
  simp only [update, if_neg hv, get, decide_eq_true_eq]
  cases f.get? x with
  | none => simp [Ne.symm hv]
  | some w => simp

/-- Overwriting reports a change exactly if the source says something else about some
variable. -/
theorem overwrite_changed_iff (f : Fact) {source : Fact} (hs : source.Lawful) :
    (f.overwrite source).2 = true ↔
      ∃ x, source.get x ≠ .undefined ∧ f.get x ≠ source.get x := by
  have hentries : (f.overwrite source).2 = true ↔ ∃ e ∈ source.entries, f.get e.1 ≠ e.2 := by
    rcases source with ⟨es⟩
    induction es generalizing f with
    | nil => simp [overwrite]
    | cons e es ih =>
      rcases hs.of_cons with ⟨hdef, hnone, hes⟩
      rw [overwrite_cons, Bool.or_eq_true, update_changed_iff f e.1 hdef, ih _ hes]
      simp only [List.mem_cons, exists_eq_or_imp]
      refine or_congr_right (exists_congr fun d => and_congr_right fun hm => ?_)
      -- later entries are about other variables, which the first one leaves alone
      have hne : d.1 ≠ e.1 := by
        intro h
        rw [← h, Entries.lookup_of_mem hes.nodup hm] at hnone
        cases hnone
      rw [get_update, if_neg hne]
  rw [hentries]
  constructor
  · rintro ⟨e, he, hne⟩
    rw [hs.mem_entries_iff] at he
    exact ⟨e.1, he.2 ▸ he.1, he.2 ▸ hne⟩
  · rintro ⟨x, hx, hne⟩
    exact ⟨(x, source.get x), mem_of_get hx, hne⟩

end Fact

end ConstantFlow

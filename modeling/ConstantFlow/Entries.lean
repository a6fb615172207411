/-!
# Entries in order

Maps as lists of keys and values. A key keeps the place where it was first put, so that maps can
be shown in the order in which they came about.
-/

namespace ConstantFlow.Entries

variable {α β : Type} [DecidableEq α]

/-- The entries with `a` bound to `b`: in the place of `a` if it is bound, else at the end. -/
def put (a : α) (b : β) : List (α × β) → List (α × β)
  | [] => [(a, b)]
  | e :: es => if e.1 = a then (a, b) :: es else e :: put a b es

/-- The map of a list of bindings: the last binding of a key counts and stands in the place of
its first. -/
def ofList (bindings : List (α × β)) : List (α × β) :=
  bindings.foldl (fun es b => put b.1 b.2 es) []

theorem lookup_entry (k : α) (e : α × β) (es : List (α × β)) :
    (e :: es).lookup k = if k = e.1 then some e.2 else es.lookup k := by
  rcases e with ⟨a, b⟩
  rw [List.lookup_cons]
  by_cases h : k = a
  · rw [if_pos h, beq_iff_eq.mpr h]
  · rw [if_neg h, beq_eq_false_iff_ne.mpr h]

/-- Putting sets one key and leaves the others alone. -/
theorem lookup_put (a k : α) (b : β) (es : List (α × β)) :
    (put a b es).lookup k = if k = a then some b else es.lookup k := by
  induction es with
  | nil => simp [put, lookup_entry]
  | cons e es ih =>
    by_cases he : e.1 = a
    · by_cases h : k = a <;> simp [put, lookup_entry, he, h]
    · simp only [put, he, if_false, lookup_entry, ih]
      by_cases hk : k = e.1
      · simp [hk, he]
      · simp [hk]

end ConstantFlow.Entries

import ConstantFlow.Proofs.Loading.Acceptance
import Mathlib.Algebra.Ring.Int.Defs
import Mathlib.Algebra.Ring.Nat

/-!
# Where loading finds fault

A load that fails says what is wrong with which form, and this form is a part of the one that was to
be loaded. There is one exception: a number that two nodes have, or that is named as a successor and
no node has, may be too long to be written, and then nothing is said about any form.

Main results:

* `blames_procedure`: every error of loading a procedure blames a part of it or such a number
* `loads_iff_grammar_up_to_target_heads`: a form is a procedure of the grammar, up to the heads of
  targets, and is loaded, or it is refused in one of these two ways
* `loading_departs_from_documentation`: both departures from what is documented do occur
-/

namespace ConstantFlow.Loading

/-- The errors of a load of the form, where the given numbers may be at fault. -/
inductive Blamed (root : Form) (faulty : Int → Prop) : LoadError → Prop where
  | part {part : Form} (what : Misfit) : part.PartOf root → Blamed root faulty (.misfit what part)
  | number {n : Int} : faulty n → Numeral.writable n = false → Blamed root faulty (.unwritable n)

/-- Every error of the load is about a part of the form or about a number at fault. -/
def Blames {α : Type} (root : Form) (faulty : Int → Prop) (r : Except LoadError α) : Prop :=
  ∀ e, r = .error e → Blamed root faulty e

section Blame

variable {root : Form} {faulty : Int → Prop} {scope : Scope}

theorem blames_ok {α : Type} (a : α) : Blames root faulty (.ok a) :=
  nofun

theorem blames_misfit {α : Type} {part : Form} (what : Misfit) (h : part.PartOf root) :
    Blames root faulty (.error (.misfit what part) : Except LoadError α) := by
  intro e he
  cases he
  exact .part what h

theorem blames_misnumbered {α : Type} {part : Form} {n : Int} (what : Int → Misfit)
    (h : part.PartOf root) (hn : faulty n) :
    Blames root faulty (.error (.misnumbered what n part) : Except LoadError α) := by
  unfold LoadError.misnumbered
  split
  case isTrue => exact blames_misfit _ h
  case isFalse hlong =>
    intro e he
    cases he
    exact .number hn (Bool.not_eq_true _ ▸ hlong)

/-- Errors of two steps come from either of them; the second one may rely on the first. -/
theorem Blames.bind {α β : Type} {r : Except LoadError α} {f : α → Except LoadError β}
    (hr : Blames root faulty r) (hf : ∀ a, r = .ok a → Blames root faulty (f a)) :
    Blames root faulty (r >>= f) := by
  cases r with
  | error e =>
    intro e' he
    cases he
    exact hr e rfl
  | ok a => exact hf a rfl

theorem Blames.bind_pure {α β : Type} {r : Except LoadError α} (hr : Blames root faulty r)
    (f : α → β) : Blames root faulty (r >>= fun a => pure (f a)) :=
  hr.bind fun a _ => blames_ok (f a)

/-- A step may rely on what the steps before it have led to. -/
theorem blames_foldlM {α β : Type} {f : β → α → Except LoadError β} {xs : List α} {b : β}
    (hf : ∀ before x after b', xs = before ++ x :: after → before.foldlM f b = .ok b' →
      Blames root faulty (f b' x)) :
    Blames root faulty (xs.foldlM f b) := by
  induction xs generalizing b with
  | nil => exact blames_ok b
  | cons x xs ih =>
    rw [List.foldlM_cons]
    refine (hf [] x xs b rfl rfl).bind fun c hc => ih ?_
    intro before y after b' hxs hb'
    refine hf (x :: before) y after b' (by rw [hxs, List.cons_append]) ?_
    rw [List.foldlM_cons, hc]
    exact hb'

theorem blames_mapM {α β : Type} {f : α → Except LoadError β} {xs : List α}
    (hf : ∀ x ∈ xs, Blames root faulty (f x)) : Blames root faulty (xs.mapM f) := by
  induction xs with
  | nil => exact blames_ok []
  | cons x xs ih =>
    rw [List.mapM_cons]
    refine (hf x List.mem_cons_self).bind fun b _ => ?_
    exact (ih fun y hy => hf y (List.mem_cons_of_mem _ hy)).bind_pure _

/-! ## Shapes -/

theorem blames_symbolName {f : Form} (h : f.PartOf root) : Blames root faulty (symbolName f) := by
  unfold symbolName
  split
  · exact blames_ok _
  · exact blames_misfit _ h

theorem blames_integerValue {f : Form} (h : f.PartOf root) :
    Blames root faulty (integerValue f) := by
  unfold integerValue
  split
  · exact blames_ok _
  · exact blames_misfit _ h

theorem blames_listItems {tag : String} {f : Form} (h : f.PartOf root) :
    Blames root faulty (listItems tag f) := by
  unfold listItems
  split
  · exact blames_ok _
  · exact blames_misfit _ h

/-- What is done with the elements of a list may rely on their being parts of it. -/
theorem blames_bind_listItems {α : Type} {tag : String} {form : Form}
    {k : List Form → Except LoadError α} (h : form.PartOf root)
    (hk : ∀ items, form = .list items → (∀ f ∈ items, f.PartOf root) →
      Blames root faulty (k items)) :
    Blames root faulty (listItems tag form >>= k) := by
  refine (blames_listItems h).bind fun items hitems => ?_
  obtain rfl := listItems_eq_ok_iff.mp hitems
  exact hk items rfl fun f hf => h.element hf

theorem blames_resolve {f : Form} (h : f.PartOf root) : Blames root faulty (scope.resolve f) := by
  unfold Scope.resolve
  refine (blames_symbolName h).bind fun name _ => ?_
  split
  · exact blames_ok _
  · exact blames_misfit _ h

/-! ## Expressions and statements -/

theorem blames_fieldParts {items : List Form} (h : (Form.list items).PartOf root) :
    Blames root faulty (fieldParts scope items) := by
  unfold fieldParts
  split
  · refine (blames_resolve (h.element (by simp))).bind fun x _ => ?_
    exact (blames_symbolName (h.element (by simp))).bind_pure _
  · exact blames_misfit _ h

theorem blames_inOrder {α : Type} {rs : List (Except LoadError α)}
    (h : ∀ r ∈ rs, Blames root faulty r) : Blames root faulty (inOrder rs) := by
  induction rs with
  | nil => exact blames_ok []
  | cons r rs ih =>
    rw [List.forall_mem_cons] at h
    exact h.1.bind fun a _ => (ih h.2).bind_pure _

theorem blames_compound {head : Form} {args : List Form} {values : List (Except LoadError Expr)}
    (h : (Form.list (head :: args)).PartOf root) (hvalues : ∀ r ∈ values, Blames root faulty r) :
    Blames root faulty (compound scope head args values) := by
  unfold compound
  refine (blames_symbolName (h.element List.mem_cons_self)).bind fun tag _ => ?_
  split
  case isTrue =>
    split
    · exact (hvalues _ (by simp)).bind_pure _
    · exact blames_misfit _ h
  case isFalse =>
    split
    case isTrue =>
      split
      · refine (blames_symbolName (h.element (by simp))).bind fun m _ => ?_
        exact (blames_inOrder fun r hr => hvalues r (List.mem_cons_of_mem _ hr)).bind_pure _
      · exact blames_misfit _ h
    case isFalse =>
      split
      case isTrue => exact (blames_fieldParts h).bind_pure _
      case isFalse =>
        split
        · exact blames_misfit _ h
        · split
          · exact (hvalues _ (by simp)).bind fun l _ => (hvalues _ (by simp)).bind_pure _
          · exact blames_misfit _ h

theorem blames_expression {form : Form} (h : form.PartOf root) :
    Blames root faulty (expression scope form) := by
  -- by induction on the form: an argument is a part of whatever its list is a part of
  induction form using Form.inductionOnLists with
  | hlist items ih =>
    cases items with
    | nil => exact blames_misfit _ h
    | cons head args =>
      rw [expression_list]
      refine blames_compound h ?_
      rw [List.forall_mem_map]
      intro a ha
      exact ih a (List.mem_cons_of_mem _ ha) (h.element (List.mem_cons_of_mem _ ha))
  | hatom form hform =>
    cases form with
    | integer n => exact blames_ok _
    | symbol s => exact (blames_resolve h).bind_pure _
    | list items => exact absurd rfl (hform items)
    | _ => exact blames_misfit _ h

theorem blames_expressions {forms : List Form} (h : ∀ f ∈ forms, f.PartOf root) :
    Blames root faulty (expressions scope forms) := by
  rw [expressions, eachExpression_eq_map]
  refine blames_inOrder ?_
  rw [List.forall_mem_map]
  exact fun f hf => blames_expression (h f hf)

theorem blames_target {form : Form} (h : form.PartOf root) :
    Blames root faulty (target scope form) := by
  unfold target
  split
  · exact (blames_fieldParts h).bind_pure _
  · exact (blames_resolve h).bind_pure _

theorem blames_statement {form : Form} (h : form.PartOf root) :
    Blames root faulty (statement scope form) := by
  rcases stmtShape_or_refused scope form with hshape | ⟨what, part, herror, hpart⟩
  · cases hshape with
    | assign t e =>
      rw [statement_assign]
      refine (blames_target (h.element (by simp))).bind fun t _ => ?_
      exact (blames_expression (h.element (by simp))).bind_pure _
    | branch e =>
      rw [statement_branch]
      exact (blames_expression (h.element (by simp))).bind_pure _
    | jump => exact blames_ok _
    | leave => exact blames_ok _
    | ret e =>
      rw [statement_ret]
      exact (blames_expression (h.element (by simp))).bind_pure _
    | nop => exact blames_ok _
    | invoke method args =>
      rw [statement_invoke]
      refine (blames_symbolName (h.element (by simp))).bind fun m _ => ?_
      refine (blames_expressions fun f hf => h.element ?_).bind_pure _
      exact List.mem_cons_of_mem _ (List.mem_cons_of_mem _ hf)
  · rw [herror]
    exact blames_misfit what (hpart.trans h)

/-! ## Items -/

theorem blames_declaration {form : Form} (h : form.PartOf root) :
    Blames root faulty (declaration scope form) := by
  unfold declaration
  refine blames_bind_listItems h fun items hform hparts => ?_
  subst hform
  split
  next =>
    refine (blames_symbolName (hparts _ (by simp))).bind fun name _ => ?_
    split
    · exact blames_misfit _ h
    · exact (blames_symbolName (hparts _ (by simp))).bind_pure _
  next => exact blames_misfit _ h

theorem blames_declarations {forms : List Form} (h : ∀ f ∈ forms, f.PartOf root) :
    Blames root faulty (declarations scope forms) := by
  induction forms generalizing scope with
  | nil => exact blames_ok []
  | cons form forms ih =>
    rw [List.forall_mem_cons] at h
    exact (blames_declaration h.1).bind fun x _ => (ih h.2).bind_pure _

theorem blames_add {item : Form} (h : item.PartOf root) (d : Draft) :
    Blames root faulty (d.add item) := by
  unfold Draft.add
  refine blames_bind_listItems h fun items hform hparts => ?_
  subst hform
  split
  · exact blames_misfit _ h
  next head args =>
    rw [List.forall_mem_cons] at hparts
    refine (blames_symbolName hparts.1).bind fun tag _ => ?_
    split
    case isTrue => exact (blames_declarations hparts.2).bind_pure _
    case isFalse =>
      split
      case isTrue => exact (blames_declarations hparts.2).bind_pure _
      case isFalse =>
        split
        case isTrue =>
          split
          · exact blames_ok _
          · exact blames_misfit _ h
        case isFalse => exact blames_misfit _ h

/-! ## Nodes and edges -/

/-- All that is written down for the node is part of the form. -/
structure Within (root : Form) (n : NodeItem) : Prop where
  form : n.form.PartOf root
  id : n.id.PartOf root
  code : n.code.PartOf root
  succs : ∀ s ∈ n.succs, s.PartOf root

theorem within_of_nodeItem {item : Form} {n : NodeItem} (h : item.PartOf root)
    (hn : nodeItem? item = some n) : Within root n := by
  unfold nodeItem? at hn
  split at hn
  next id code succs =>
    cases hn
    refine ⟨h, h.element (by simp), h.element (by simp), fun s hs => h.element ?_⟩
    simp [hs]
  next => cases hn

/-- A number that does not do for a node: it stands at two of them, or it is named as a successor
and stands at none. -/
inductive Misnumbered (nodes : List NodeItem) (n : Int) : Prop where
  | twice : 2 ≤ (numbers nodes).count n → Misnumbered nodes n
  | nowhere {item : NodeItem} :
    item ∈ nodes → .integer n ∈ item.succs → n ∉ numbers nodes → Misnumbered nodes n

theorem blames_place {n : NodeItem} {placed : List Placed} (h : Within root n)
    (htaken : ∀ id ∈ placed.map Placed.id, n.id = .integer id → faulty id) :
    Blames root faulty (place scope placed n) := by
  unfold place
  refine (blames_integerValue h.id).bind fun id hid => ?_
  split
  case isTrue hany =>
    refine blames_misnumbered _ h.form (htaken id ?_ (integerValue_eq_ok_iff.mp hid))
    simpa using hany
  case isFalse => exact (blames_statement h.code).bind_pure _

theorem blames_successor {placed : List Placed} {form : Form} (h : form.PartOf root)
    (hunknown : ∀ id, form = .integer id → id ∉ placed.map Placed.id → faulty id) :
    Blames root faulty (successor placed form) := by
  unfold successor
  refine (blames_integerValue h).bind fun id hid => ?_
  split
  · exact blames_ok _
  next hfind =>
    refine blames_misnumbered _ h (hunknown id (integerValue_eq_ok_iff.mp hid) ?_)
    simpa using hfind

theorem blames_connect {placed : List Placed} {p : Placed} (h : ∀ s ∈ p.succs, s.PartOf root)
    (hunknown : ∀ id, .integer id ∈ p.succs → id ∉ placed.map Placed.id → faulty id)
    (g : FlowGraph) : Blames root faulty (connect placed g p) := by
  refine Blames.bind_pure ?_ _
  unfold destinations
  split
  · exact blames_ok _
  · refine blames_mapM fun s hs => blames_successor (h s hs) ?_
    rintro id rfl hid
    exact hunknown id hs hid

/-- The number of a node that one of the nodes before it has as well. -/
theorem two_le_count_numbers {before after : List NodeItem} {item : NodeItem} {id : Int}
    (hid : item.id = .integer id) (hbefore : id ∈ numbers before) :
    2 ≤ (numbers (before ++ item :: after)).count id := by
  have hnumbers : numbers (before ++ item :: after) = numbers before ++ id :: numbers after := by
    rw [← numbers_cons hid]
    exact List.filterMap_append
  have hpos : 0 < (numbers before).count id := List.count_pos_iff.mpr hbefore
  rw [hnumbers, List.count_append, List.count_cons_self]
  omega

theorem blames_assemble {name : String} {d : Draft} (h : ∀ n ∈ d.nodes, Within root n) :
    Blames root (Misnumbered d.nodes) (assemble name d) := by
  unfold assemble
  refine (blames_foldlM ?_).bind ?_
  · -- what is placed before a node has the numbers that are written before it
    intro before item after placed hnodes hplaced
    refine blames_place (h item (by simp [hnodes])) ?_
    intro id hmem hid
    rw [(placed_of_foldlM hplaced).1] at hmem
    rw [hnodes]
    exact .twice (two_le_count_numbers hid hmem)
  · intro placed hplaced
    obtain ⟨hids, hsuccs⟩ := placed_of_foldlM hplaced
    refine blames_foldlM fun before p after g hp _ => ?_
    -- the successors of a placed node are those of the item that it comes from
    have hmem : p.succs ∈ placed.map Placed.succs := List.mem_map_of_mem (by simp [hp])
    rw [hsuccs] at hmem
    obtain ⟨item, hitem, heq⟩ := List.mem_map.mp hmem
    refine blames_connect (heq ▸ (h item hitem).succs) ?_ g
    intro id hid hunknown
    rw [hids] at hunknown
    exact .nowhere hitem (heq ▸ hid) hunknown

end Blame

/-! ## Procedures -/

/-- The nodes that a procedure writes down. -/
def nodesOf : Form → List NodeItem
  | .list (_ :: _ :: items) => nodesIn items
  | _ => []

theorem blames_procedure (form : Form) :
    Blames form (Misnumbered (nodesOf form)) (procedure form) := by
  unfold procedure
  refine blames_bind_listItems .refl fun items hform hparts => ?_
  subst hform
  split
  next head name items =>
    simp only [List.forall_mem_cons] at hparts
    obtain ⟨hhead, hname, hitems⟩ := hparts
    refine (blames_symbolName hhead).bind fun tag _ => ?_
    split
    · exact blames_misfit _ hhead
    · refine (blames_symbolName hname).bind fun name _ => ?_
      refine (blames_foldlM fun before item after d hsplit _ => ?_).bind ?_
      · exact blames_add (hitems item (by simp [hsplit])) d
      · intro d hd
        split
        · exact blames_misfit _ .refl
        · obtain ⟨_, _, rfl⟩ := foldlM_add_eq_ok_iff.mp hd
          refine blames_assemble fun n hn => ?_
          obtain ⟨item, hitem, hnode⟩ := List.mem_filterMap.mp hn
          exact within_of_nodeItem (hitems item hitem) hnode
  next => exact blames_misfit _ .refl

theorem writable_eq_false_iff {n : Int} :
    Numeral.writable n = false ↔ 10 ^ Numeral.mostDigits ≤ n.natAbs := by
  rw [Numeral.writable, decide_eq_false_iff_not, Nat.not_lt, Nat.pow_eq]

theorem pow_ten_le_natAbs {k : Nat} (h : Numeral.mostDigits ≤ k) :
    10 ^ Numeral.mostDigits ≤ ((10 : Int) ^ k).natAbs := by
  rw [Int.natAbs_pow]
  exact Nat.pow_le_pow_right (by decide) h

/-- A form is loaded exactly if it follows the grammar, except that a target that names a field may
have any head; the procedures of the documented grammar are the loaded forms whose targets have the
head `field`. Of a form that is not loaded, a part is blamed, except where a number that cannot be
written stands at two nodes, or is named as a successor and stands at none. -/
theorem loads_iff_grammar_up_to_target_heads (form : Form) :
    ((∃ g, procedure form = .ok g) ↔ ProcedureForm (fun _ => True) form) ∧
      (ProcedureForm (· = .symbol "field") form ↔
        (∃ g, procedure form = .ok g) ∧ ∀ head ∈ targetHeads form, head = .symbol "field") ∧
      ((∃ g, procedure form = .ok g) ∨
        (∃ what part, procedure form = .error (.misfit what part) ∧ part.PartOf form) ∨
        ∃ n, procedure form = .error (.unwritable n) ∧ Misnumbered (nodesOf form) n ∧
          10 ^ Numeral.mostDigits ≤ n.natAbs) := by
  have hloads : (∃ g, procedure form = .ok g) ↔ ProcedureForm (fun _ => True) form :=
    succeeds_procedure_iff
  refine ⟨hloads, ?_, ?_⟩
  · rw [hloads]
    exact procedureForm_iff
  · cases h : procedure form with
    | ok g => exact Or.inl ⟨g, rfl⟩
    | error e =>
      cases blames_procedure form e h with
      | part what hpart => exact Or.inr (Or.inl ⟨what, _, rfl, hpart⟩)
      | number hn hlong => exact Or.inr (Or.inr ⟨_, rfl, hn, writable_eq_false_iff.mp hlong⟩)

/-- A procedure that assigns to a field by a list without the head `field`. -/
def mislabelled : Form :=
  .list [.symbol "procedure", .symbol "f",
    .list [.symbol "vars", .list [.symbol "o", .symbol "Point"]],
    .list [.symbol "node", .integer 0,
      .list [.symbol "assign", .list [.symbol "bogus", .symbol "o", .symbol "x"], .integer 1]]]

/-- A procedure with two nodes of the same number. -/
def numberedTwice (n : Int) : Form :=
  .list [.symbol "procedure", .symbol "f",
    .list [.symbol "node", .integer n, .list [.symbol "nop"]],
    .list [.symbol "node", .integer n, .list [.symbol "nop"]]]

theorem procedure_numberedTwice {n : Int} (h : 10 ^ Numeral.mostDigits ≤ n.natAbs) :
    procedure (numberedTwice n) = .error (.unwritable n) := by
  have hlong := writable_eq_false_iff.mpr h
  simp [numberedTwice, procedure, listItems, symbolName, Draft.add, assemble, place, integerValue,
    statement, LoadError.misnumbered, hlong, bind, Except.bind, pure, Except.pure]

/-- A form outside the grammar is loaded, and one is refused by no word about any form. -/
theorem loading_departs_from_documentation :
    ((∃ g, procedure mislabelled = .ok g) ∧
      ¬ ProcedureForm (· = .symbol "field") mislabelled) ∧
      procedure (numberedTwice (10 ^ 5000)) = .error (.unwritable (10 ^ 5000)) := by
  refine ⟨⟨⟨_, rfl⟩, fun h => ?_⟩, ?_⟩
  · have hhead : Form.symbol "bogus" ∈ targetHeads mislabelled := List.mem_singleton.mpr rfl
    have hfield : Form.symbol "bogus" = .symbol "field" := (procedureForm_iff.mp h).2 _ hhead
    simp at hfield
  · exact procedure_numberedTwice (pow_ten_le_natAbs (by decide))

end ConstantFlow.Loading

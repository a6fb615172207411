import ConstantFlow.Proofs.Expression
import ConstantFlow.Proofs.Loading.Grammar

/-!
# Writing expressions and statements

Every expression and every statement can be written down as a form. Loading is the inverse of
writing: a form is loaded as an expression exactly if it is the written form of that expression and
the variables of the expression are in scope. The same holds of statements, up to the head of the
list that names a field on the left of an assignment, which loading does not look at.

Main results:

* `expression_eq_ok_iff`: which form is loaded as a given expression
* `statement_eq_ok_iff`: which forms are loaded as a given statement
* `loading_inverts_writing_up_to_target_heads`: loading and writing are inverse to each other,
  apart from those heads
* `beheaded_target_loads_as_field`: a procedure with another head is loaded
-/

namespace ConstantFlow

/-! ## Written forms -/

mutual

/-- The form of an expression. -/
def Expr.toForm : Expr → Form
  | .var x => .symbol x.name
  | .lit n => .integer n
  | .binary op l r => .list [.symbol op.symbol, l.toForm, r.toForm]
  | .neg e => .list [.symbol "neg", e.toForm]
  | .call m args => .list (.symbol "invoke" :: .symbol m :: Expr.toForms args)
  | .field x f => .list [.symbol "field", .symbol x.name, .symbol f]

/-- The forms of several expressions. -/
def Expr.toForms : List Expr → List Form
  | [] => []
  | e :: es => e.toForm :: Expr.toForms es

end

theorem Expr.toForms_eq_map (es : List Expr) : Expr.toForms es = es.map Expr.toForm := by
  induction es with
  | nil => rw [Expr.toForms, List.map_nil]
  | cons e es ih => rw [Expr.toForms, ih, List.map_cons]

/-- The form of a target, with the given head in the list that names a field. -/
def Target.formWith (head : Form) : Target → Form
  | .var x => .symbol x.name
  | .field x f => .list [head, .symbol x.name, .symbol f]

/-- The form of a statement, with the given head in the list that names a field as its target. -/
def Stmt.formWith (head : Form) : Stmt → Form
  | .nop => .list [.symbol "nop"]
  | .assign t e => .list [.symbol "assign", t.formWith head, e.toForm]
  | .branch e => .list [.symbol "if", e.toForm]
  | .jump => .list [.symbol "goto"]
  | .ret none => .list [.symbol "return"]
  | .ret (some e) => .list [.symbol "return", e.toForm]
  | .call m args => .list (.symbol "invoke" :: .symbol m :: Expr.toForms args)

/-- The form of a statement. -/
def Stmt.toForm (s : Stmt) : Form :=
  s.formWith (.symbol "field")

def Target.vars : Target → List Var
  | .var x => [x]
  | .field x _ => [x]

/-- The variables that occur in a statement. -/
def Stmt.vars : Stmt → List Var
  | .nop | .jump | .ret none => []
  | .assign t e => t.vars ++ e.vars
  | .branch e | .ret (some e) => e.vars
  | .call _ args => Expr.varsAll args

namespace Loading

/-! ## Parts of loads -/

theorem bind_pure_eq_ok_iff {α β ε : Type} {r : Except ε α} {f : α → β} {b : β} :
    (r >>= fun a => pure (f a)) = .ok b ↔ ∃ a, r = .ok a ∧ b = f a := by
  rw [bind_eq_ok_iff]
  refine exists_congr fun a => and_congr_right fun _ => ?_
  constructor
  · intro h
    exact (Except.ok.inj h).symm
  · intro h
    rw [h]
    rfl

theorem inOrder_eq_ok_iff {α : Type} {rs : List (Except LoadError α)} {as : List α} :
    inOrder rs = .ok as ↔ rs = as.map .ok := by
  induction rs generalizing as with
  | nil =>
    rw [inOrder, Except.ok.injEq, eq_comm, eq_comm (b := as.map _), List.map_eq_nil_iff]
  | cons r rs ih =>
    rw [inOrder, bind_eq_ok_iff]
    constructor
    · rintro ⟨a, ha, h⟩
      obtain ⟨as', has, rfl⟩ := bind_pure_eq_ok_iff.mp h
      rw [ha, ih.mp has, List.map_cons]
    · intro h
      obtain ⟨a, as', rfl, ha, has⟩ := List.map_eq_cons_iff.mp h.symm
      exact ⟨a, ha.symm, bind_pure_eq_ok_iff.mpr ⟨as', ih.mpr has.symm, rfl⟩⟩

/-- In a scope without repeated names, a name stands for the variable that has it. -/
theorem Scope.find?_eq_some_iff {scope : Scope} (hscope : scope.names.Nodup) {name : String}
    {x : Var} : scope.find? name = some x ↔ x ∈ scope ∧ x.name = name := by
  constructor
  · intro h
    exact ⟨List.mem_of_find?_eq_some h, by simpa using List.find?_some h⟩
  · rintro ⟨hx, rfl⟩
    obtain ⟨y, hy⟩ := Scope.exists_find_iff.mpr (List.mem_map_of_mem (f := Var.name) hx)
    have hname : y.name = x.name := by simpa using List.find?_some hy
    have hmem : y ∈ scope := List.mem_of_find?_eq_some hy
    rw [hy, List.inj_on_of_nodup_map hscope hmem hx hname]

/-! ## Loading what is written

One equation per form, then the loads that succeed. -/

section Equations

variable (scope : Scope)

theorem expression_neg (a : Form) :
    expression scope (.list [.symbol "neg", a]) =
      (expression scope a >>= fun e => pure (.neg e)) := by
  rw [expression_list]
  rfl

theorem expression_binary (op : BinOp) (a b : Form) :
    expression scope (.list [.symbol op.symbol, a, b]) =
      (expression scope a >>= fun l => expression scope b >>= fun r =>
        pure (.binary op l r)) := by
  rw [expression_list, compound_operator]
  rfl

theorem expression_invoke (method : String) (args : List Form) :
    expression scope (.list (.symbol "invoke" :: .symbol method :: args)) =
      (expressions scope args >>= fun es => pure (.call method es)) := by
  rw [expression_list, expressions, eachExpression_eq_map]
  rfl

theorem expression_field (base : Form) (name : String) :
    expression scope (.list [.symbol "field", base, .symbol name]) =
      (scope.resolve base >>= fun x => pure (.field x name)) := by
  rw [expression_list]
  change ((scope.resolve base >>= fun x => pure (x, name)) >>= fun parts =>
    pure (Expr.field parts.1 parts.2)) = _
  cases scope.resolve base <;> rfl

end Equations

theorem expressions_eq_ok_iff {scope : Scope} {forms : List Form} {es : List Expr} :
    expressions scope forms = .ok es ↔ forms.map (expression scope) = es.map .ok := by
  rw [expressions, eachExpression_eq_map, inOrder_eq_ok_iff]

/-- Several forms are written like what they are loaded as if each of them is. -/
theorem written_of_expressions {scope : Scope} {forms : List Form} {es : List Expr}
    (hforms : ∀ f ∈ forms, ∀ e, expression scope f = .ok e →
      f = e.toForm ∧ ∀ x ∈ e.vars, x ∈ scope)
    (h : forms.map (expression scope) = es.map .ok) :
    forms = Expr.toForms es ∧ ∀ x ∈ Expr.varsAll es, x ∈ scope := by
  induction forms generalizing es with
  | nil =>
    obtain rfl := List.map_eq_nil_iff.mp h.symm
    exact ⟨by rw [Expr.toForms], by simp [Expr.varsAll]⟩
  | cons f forms ih =>
    rw [List.forall_mem_cons] at hforms
    obtain ⟨e, es', rfl, he, hes⟩ := List.map_eq_cons_iff.mp h.symm
    obtain ⟨hf, hvars⟩ := hforms.1 e he.symm
    obtain ⟨hrest, hrestvars⟩ := ih hforms.2 hes.symm
    refine ⟨by rw [Expr.toForms, ← hf, ← hrest], ?_⟩
    rw [Expr.varsAll, List.forall_mem_append]
    exact ⟨hvars, hrestvars⟩

theorem expressions_toForms {scope : Scope} {es : List Expr}
    (h : ∀ e ∈ es, expression scope e.toForm = .ok e) :
    expressions scope (Expr.toForms es) = .ok es := by
  rw [expressions_eq_ok_iff, Expr.toForms_eq_map, List.map_map]
  exact List.map_congr_left h

section Written

variable {scope : Scope} (hscope : scope.names.Nodup)

include hscope

theorem resolve_eq_ok_iff {f : Form} {x : Var} :
    scope.resolve f = .ok x ↔ f = .symbol x.name ∧ x ∈ scope := by
  unfold Scope.resolve
  rw [bind_eq_ok_iff]
  constructor
  · rintro ⟨name, hname, h⟩
    obtain rfl := symbolName_eq_ok_iff.mp hname
    split at h
    next y hy =>
      cases h
      obtain ⟨hx, rfl⟩ := (Scope.find?_eq_some_iff hscope).mp hy
      exact ⟨rfl, hx⟩
    next => cases h
  · rintro ⟨rfl, hx⟩
    refine ⟨x.name, rfl, ?_⟩
    rw [(Scope.find?_eq_some_iff hscope).mpr ⟨hx, rfl⟩]

/-- What is loaded is written like the form, and its variables are in scope. -/
theorem written_of_expression {f : Form} {e : Expr} (h : expression scope f = .ok e) :
    f = e.toForm ∧ ∀ x ∈ e.vars, x ∈ scope := by
  -- by induction on the derivation that the form is one of the grammar
  have hform := exprForm_of_succeeds ⟨e, h⟩
  induction hform generalizing e with
  | integer n =>
    rw [expression] at h
    cases h
    exact ⟨rfl, by simp [Expr.vars]⟩
  | name hx =>
    rw [expression, bind_pure_eq_ok_iff] at h
    obtain ⟨x, hx, rfl⟩ := h
    obtain ⟨hf, hx⟩ := (resolve_eq_ok_iff hscope).mp hx
    exact ⟨hf, by simpa [Expr.vars] using hx⟩
  | binary op _ _ ihl ihr =>
    rw [expression_binary, bind_eq_ok_iff] at h
    obtain ⟨l, hl, h⟩ := h
    obtain ⟨r, hr, rfl⟩ := bind_pure_eq_ok_iff.mp h
    obtain ⟨rfl, hlvars⟩ := ihl hl
    obtain ⟨rfl, hrvars⟩ := ihr hr
    refine ⟨by rw [Expr.toForm], ?_⟩
    rw [Expr.vars, List.forall_mem_append]
    exact ⟨hlvars, hrvars⟩
  | neg _ ih =>
    rw [expression_neg, bind_pure_eq_ok_iff] at h
    obtain ⟨e, he, rfl⟩ := h
    obtain ⟨rfl, hvars⟩ := ih he
    exact ⟨by rw [Expr.toForm], by rwa [Expr.vars]⟩
  | invoke method _ ih =>
    rw [expression_invoke, bind_pure_eq_ok_iff] at h
    obtain ⟨es, hes, rfl⟩ := h
    obtain ⟨rfl, hvars⟩ :=
      written_of_expressions (fun a ha e he => ih a ha he) (expressions_eq_ok_iff.mp hes)
    exact ⟨by rw [Expr.toForm], by rwa [Expr.vars]⟩
  | field name hx =>
    rw [expression_field, bind_pure_eq_ok_iff] at h
    obtain ⟨x, hx, rfl⟩ := h
    obtain ⟨hf, hx⟩ := (resolve_eq_ok_iff hscope).mp hx
    exact ⟨by rw [Expr.toForm, hf], by simpa [Expr.vars] using hx⟩

theorem expression_toForm {e : Expr} : (∀ x ∈ e.vars, x ∈ scope) →
    expression scope e.toForm = .ok e := by
  induction e using Expr.inductionOnParts with
  | var x =>
    intro hvars
    have hx : x ∈ scope := by simpa [Expr.vars] using hvars
    rw [Expr.toForm, expression, (resolve_eq_ok_iff hscope).mpr ⟨rfl, hx⟩]
    rfl
  | lit n =>
    intro _
    rw [Expr.toForm, expression]
  | binary op l r ihl ihr =>
    intro hvars
    rw [Expr.vars, List.forall_mem_append] at hvars
    rw [Expr.toForm, expression_binary, ihl hvars.1, ihr hvars.2]
    rfl
  | neg e ih =>
    intro hvars
    rw [Expr.vars] at hvars
    rw [Expr.toForm, expression_neg, ih hvars]
    rfl
  | call m args ih =>
    intro hvars
    rw [Expr.vars, Expr.varsAll_eq_flatMap, List.forall_mem_flatMap] at hvars
    have hargs := expressions_toForms fun e he => ih e he (hvars e he)
    rw [Expr.toForm, expression_invoke, hargs]
    rfl
  | field x f =>
    intro hvars
    have hx : x ∈ scope := by simpa [Expr.vars] using hvars
    rw [Expr.toForm, expression_field, (resolve_eq_ok_iff hscope).mpr ⟨rfl, hx⟩]
    rfl

/-- Loading an expression is the inverse of writing it down. -/
theorem expression_eq_ok_iff {f : Form} {e : Expr} :
    expression scope f = .ok e ↔ f = e.toForm ∧ ∀ x ∈ e.vars, x ∈ scope := by
  constructor
  · exact written_of_expression hscope
  · rintro ⟨rfl, hvars⟩
    exact expression_toForm hscope hvars

theorem expressions_eq_ok_iff_written {forms : List Form} {es : List Expr} :
    expressions scope forms = .ok es ↔
      forms = Expr.toForms es ∧ ∀ x ∈ Expr.varsAll es, x ∈ scope := by
  constructor
  · intro h
    apply written_of_expressions _ (expressions_eq_ok_iff.mp h)
    exact fun f _ e he => written_of_expression hscope he
  · rintro ⟨rfl, hvars⟩
    rw [Expr.varsAll_eq_flatMap, List.forall_mem_flatMap] at hvars
    exact expressions_toForms fun e he => expression_toForm hscope (hvars e he)

/-! ## Statements -/

theorem fieldParts_eq_ok_iff {items : List Form} {x : Var} {name : String} :
    fieldParts scope items = .ok (x, name) ↔
      (∃ head, items = [head, .symbol x.name, .symbol name]) ∧ x ∈ scope := by
  unfold fieldParts
  split
  next head base field =>
    rw [bind_eq_ok_iff]
    constructor
    · rintro ⟨y, hy, h⟩
      obtain ⟨f, hf, h⟩ := bind_pure_eq_ok_iff.mp h
      cases h
      obtain rfl := symbolName_eq_ok_iff.mp hf
      obtain ⟨rfl, hx⟩ := (resolve_eq_ok_iff hscope).mp hy
      exact ⟨⟨head, rfl⟩, hx⟩
    · rintro ⟨⟨head', h⟩, hx⟩
      cases h
      exact ⟨x, (resolve_eq_ok_iff hscope).mpr ⟨rfl, hx⟩, rfl⟩
  next hshape =>
    constructor
    · intro h
      cases h
    · rintro ⟨⟨head, rfl⟩, _⟩
      exact absurd rfl (hshape head _ _)

theorem target_eq_ok_iff {f : Form} {t : Target} :
    target scope f = .ok t ↔ (∃ head, f = t.formWith head) ∧ ∀ x ∈ t.vars, x ∈ scope := by
  unfold target
  split
  next items =>
    rw [bind_pure_eq_ok_iff]
    constructor
    · rintro ⟨⟨x, name⟩, hparts, rfl⟩
      obtain ⟨⟨head, rfl⟩, hx⟩ := (fieldParts_eq_ok_iff hscope).mp hparts
      exact ⟨⟨head, rfl⟩, by simpa [Target.vars] using hx⟩
    · rintro ⟨⟨head, h⟩, hvars⟩
      cases t with
      | var x => cases h
      | field x name =>
        cases h
        have hx : x ∈ scope := by simpa [Target.vars] using hvars
        exact ⟨(x, name), (fieldParts_eq_ok_iff hscope).mpr ⟨⟨head, rfl⟩, hx⟩, rfl⟩
  next hlist =>
    rw [bind_pure_eq_ok_iff]
    constructor
    · rintro ⟨x, hresolve, rfl⟩
      obtain ⟨rfl, hx⟩ := (resolve_eq_ok_iff hscope).mp hresolve
      exact ⟨⟨.null, rfl⟩, by simpa [Target.vars] using hx⟩
    · rintro ⟨⟨head, h⟩, hvars⟩
      cases t with
      | var x =>
        have hx : x ∈ scope := by simpa [Target.vars] using hvars
        exact ⟨x, (resolve_eq_ok_iff hscope).mpr ⟨h, hx⟩, rfl⟩
      | field x name => exact absurd h (hlist _)

theorem written_of_statement {f : Form} {s : Stmt} (h : statement scope f = .ok s) :
    (∃ head, f = s.formWith head) ∧ ∀ x ∈ s.vars, x ∈ scope := by
  cases stmtForm_of_succeeds ⟨s, h⟩ with
  | assign =>
    rw [statement_assign, bind_eq_ok_iff] at h
    obtain ⟨t, ht, h⟩ := h
    obtain ⟨e, he, rfl⟩ := bind_pure_eq_ok_iff.mp h
    obtain ⟨⟨head, rfl⟩, htvars⟩ := (target_eq_ok_iff hscope).mp ht
    obtain ⟨rfl, hevars⟩ := written_of_expression hscope he
    refine ⟨⟨head, rfl⟩, ?_⟩
    rw [Stmt.vars, List.forall_mem_append]
    exact ⟨htvars, hevars⟩
  | branch =>
    rw [statement_branch, bind_pure_eq_ok_iff] at h
    obtain ⟨e, he, rfl⟩ := h
    obtain ⟨rfl, hvars⟩ := written_of_expression hscope he
    exact ⟨⟨.null, rfl⟩, hvars⟩
  | jump =>
    cases h
    exact ⟨⟨.null, rfl⟩, nofun⟩
  | leave =>
    cases h
    exact ⟨⟨.null, rfl⟩, nofun⟩
  | ret =>
    rw [statement_ret, bind_pure_eq_ok_iff] at h
    obtain ⟨e, he, rfl⟩ := h
    obtain ⟨rfl, hvars⟩ := written_of_expression hscope he
    exact ⟨⟨.null, rfl⟩, hvars⟩
  | nop =>
    cases h
    exact ⟨⟨.null, rfl⟩, nofun⟩
  | invoke =>
    rw [statement_invoke, bind_eq_ok_iff] at h
    obtain ⟨m, hm, h⟩ := h
    cases hm
    obtain ⟨es, hes, rfl⟩ := bind_pure_eq_ok_iff.mp h
    obtain ⟨rfl, hvars⟩ := (expressions_eq_ok_iff_written hscope).mp hes
    exact ⟨⟨.null, rfl⟩, hvars⟩

theorem statement_formWith {s : Stmt} (head : Form) (hvars : ∀ x ∈ s.vars, x ∈ scope) :
    statement scope (s.formWith head) = .ok s := by
  cases s with
  | nop => rfl
  | assign t e =>
    rw [Stmt.vars, List.forall_mem_append] at hvars
    have ht := (target_eq_ok_iff hscope).mpr ⟨⟨head, rfl⟩, hvars.1⟩
    rw [Stmt.formWith, statement_assign, ht, expression_toForm hscope hvars.2]
    rfl
  | branch e =>
    rw [Stmt.formWith, statement_branch, expression_toForm hscope hvars]
    rfl
  | jump => rfl
  | ret value =>
    cases value with
    | none => rfl
    | some e =>
      rw [Stmt.formWith, statement_ret, expression_toForm hscope hvars]
      rfl
  | call m args =>
    have hargs := (expressions_eq_ok_iff_written hscope).mpr ⟨rfl, hvars⟩
    rw [Stmt.formWith, statement_invoke, hargs]
    rfl

/-- Loading a statement is the inverse of writing it down with any head in its target. -/
theorem statement_eq_ok_iff {f : Form} {s : Stmt} :
    statement scope f = .ok s ↔ (∃ head, f = s.formWith head) ∧ ∀ x ∈ s.vars, x ∈ scope := by
  constructor
  · exact written_of_statement hscope
  · rintro ⟨⟨head, rfl⟩, hvars⟩
    exact statement_formWith hscope head hvars

end Written

/-- A statement is written as it should be exactly if the list that names a field as its target, if
there is one, has the head `field`. -/
theorem formWith_eq_toForm_iff {s : Stmt} {head : Form} :
    s.formWith head = s.toForm ↔ ∀ h ∈ targetHead? (s.formWith head), h = .symbol "field" := by
  rcases s with _ | ⟨x | ⟨x, name⟩, e⟩ | e | _ | (_ | e) | ⟨m, args⟩
  case assign.field => simp [Stmt.formWith, Stmt.toForm, Target.formWith, targetHead?]
  all_goals exact iff_of_true rfl nofun

/-! ## Forms and trees -/

/-- A form is loaded as an expression exactly if it is the written form of the expression and the
variables of the expression are in scope, so no two forms are loaded as the same expression. A form
is loaded as a statement exactly if it is the written form of the statement, with any head in a
target that names a field, and the variables of the statement are in scope; it is the written form
itself exactly if this head is `field`. -/
theorem loading_inverts_writing_up_to_target_heads {scope : Scope} (hscope : scope.names.Nodup) :
    (∀ (f : Form) (e : Expr), expression scope f = .ok e ↔
      f = e.toForm ∧ ∀ x ∈ e.vars, x ∈ scope) ∧
    (∀ (f : Form) (s : Stmt), statement scope f = .ok s ↔
      (∃ head, f = s.formWith head) ∧ ∀ x ∈ s.vars, x ∈ scope) ∧
    ∀ (f : Form) (s : Stmt), statement scope f = .ok s →
      (f = s.toForm ↔ ∀ head ∈ targetHead? f, head = .symbol "field") := by
  refine ⟨fun f e => expression_eq_ok_iff hscope, fun f s => statement_eq_ok_iff hscope, ?_⟩
  intro f s h
  obtain ⟨⟨head, rfl⟩, _⟩ := written_of_statement hscope h
  exact formWith_eq_toForm_iff

/-! Variables that are spelled like the heads of expressions and like an operator. -/

namespace Namesakes

def neg : Var := { name := "neg", type := .primitive .int }
def field : Var := { name := "field", type := .reference "Point" }
def plus : Var := { name := "+", type := .primitive .int }

def scope : Scope := [neg, field, plus]

/-- The field `field` of the variable `field` becomes the sum of `+` and the negation of `neg`. -/
def code : Stmt :=
  .assign (.field field "field") (.binary .add (.var plus) (.neg (.var neg)))

def form : Form :=
  .list [.symbol "assign", .list [.symbol "field", .symbol "field", .symbol "field"],
    .list [.symbol "+", .symbol "+", .list [.symbol "neg", .symbol "neg"]]]

end Namesakes

open Namesakes in
theorem loading_inverts_writing_up_to_target_heads_namesakes :
    scope.names.Nodup ∧ code.toForm = form ∧ statement scope form = .ok code ∧
      (form = code.toForm ↔ ∀ head ∈ targetHead? form, head = .symbol "field") := by
  have hscope : scope.names.Nodup := by decide
  have hall := loading_inverts_writing_up_to_target_heads hscope
  have hloads : statement scope form = .ok code :=
    (hall.2.1 form code).mpr ⟨⟨.symbol "field", rfl⟩, by decide⟩
  exact ⟨hscope, rfl, hloads, hall.2.2 form code hloads⟩

/-! A field of an object is assigned to, by a list with any head. -/

namespace Beheaded

def o : Var := { name := "o", type := .reference "Point" }

def code : Stmt := .assign (.field o "x") (.lit 1)

/-- The assignment as it is written with the given head. -/
def written (head : String) : Form :=
  .list [.symbol "assign", .list [.symbol head, .symbol "o", .symbol "x"], .integer 1]

/-- The procedure that makes the assignment and nothing else. -/
def form (head : String) : Form :=
  .list [.symbol "procedure", .symbol "f",
    .list [.symbol "vars", .list [.symbol "o", .symbol "Point"]],
    .list [.symbol "node", .integer 0, written head]]

def graph : FlowGraph :=
  [(.entry, .stmt 0 0 code), (.stmt 0 0 code, .exit)].foldl (fun g e => g.addEdge e.1 e.2)
    (.empty "f" [])

end Beheaded

open Beheaded in
/-- Two forms are loaded as the same statement of the same procedure, and one of them is not its
written form. -/
theorem beheaded_target_loads_as_field :
    procedure (form "index") = .ok graph ∧ procedure (form "field") = .ok graph ∧
      statement [o] (written "index") = .ok code ∧ statement [o] (written "field") = .ok code ∧
      code.toForm = written "field" ∧ code.toForm ≠ written "index" :=
  ⟨rfl, rfl, rfl, rfl, rfl, by decide⟩

end Loading

end ConstantFlow

import ConstantFlow.Proofs.Loading.Graph

/-!
# The grammar of expressions and statements

Which forms are expressions and statements over given names, rule by rule, and that exactly these
are loaded. The rule for a target that names a field takes the heads that it allows as a parameter:
the documented grammar asks for the symbol `field`, and loading accepts any form.

Main results:

* `succeeds_expression_iff`: exactly the expressions of the grammar are loaded
* `succeeds_statement_iff`: exactly the statements are, with any head before a field
* `stmtShape_or_refused`: a form without the shape of a statement is refused at once
-/

namespace ConstantFlow

/-- A property of forms holds of all of them if it passes from the elements of a list to the list
and holds of every form that is no list. -/
theorem Form.inductionOnLists {P : Form → Prop}
    (hlist : ∀ items, (∀ f ∈ items, P f) → P (.list items))
    (hatom : ∀ f, (∀ items, f ≠ .list items) → P f) (f : Form) : P f := by
  apply @Form.rec P fun items => ∀ f ∈ items, P f
  case list => exact hlist
  case nil => exact nofun
  case cons =>
    intro head tail hhead htail
    exact List.forall_mem_cons.mpr ⟨hhead, htail⟩
  all_goals
    intros
    exact hatom _ nofun

/-- One form is another one or stands somewhere inside it. -/
inductive Form.PartOf (part : Form) : Form → Prop where
  | refl : PartOf part part
  | inside {f : Form} {items : List Form} : f ∈ items → PartOf part f → PartOf part (.list items)

theorem Form.PartOf.element {items : List Form} {root f : Form} (h : (Form.list items).PartOf root)
    (hf : f ∈ items) : f.PartOf root := by
  induction h with
  | refl => exact .inside hf .refl
  | inside hg _ ih => exact .inside hg ih

theorem Form.PartOf.trans {part f root : Form} (h : part.PartOf f) (hf : f.PartOf root) :
    part.PartOf root := by
  induction hf with
  | refl => exact h
  | inside hg _ ih => exact .inside hg ih

namespace Loading

/-- The load returns something. -/
def Succeeds {α ε : Type} (r : Except ε α) : Prop :=
  ∃ a, r = .ok a

theorem succeeds_ok {α ε : Type} (a : α) : Succeeds (.ok a : Except ε α) :=
  ⟨a, rfl⟩

theorem not_succeeds_error {α ε : Type} (e : ε) : ¬ Succeeds (.error e : Except ε α) := by
  rintro ⟨a, h⟩
  cases h

theorem succeeds_bind_iff {α β ε : Type} {r : Except ε α} {f : α → Except ε β} :
    Succeeds (r >>= f) ↔ ∃ a, r = .ok a ∧ Succeeds (f a) := by
  constructor
  · rintro ⟨b, h⟩
    obtain ⟨a, ha, hb⟩ := bind_eq_ok_iff.mp h
    exact ⟨a, ha, b, hb⟩
  · rintro ⟨a, ha, b, hb⟩
    exact ⟨b, bind_eq_ok_iff.mpr ⟨a, ha, hb⟩⟩

/-- What is made of the result does not matter. -/
theorem succeeds_bind_pure_iff {α β ε : Type} {r : Except ε α} {f : α → β} :
    Succeeds (r >>= fun a => pure (f a)) ↔ Succeeds r := by
  rw [succeeds_bind_iff]
  exact exists_congr fun a => and_iff_left (succeeds_ok (f a))

/-! ## Shapes -/

theorem symbolName_eq_ok_iff {f : Form} {s : String} : symbolName f = .ok s ↔ f = .symbol s := by
  cases f <;> simp [symbolName]

theorem integerValue_eq_ok_iff {f : Form} {n : Int} : integerValue f = .ok n ↔ f = .integer n := by
  cases f <;> simp [integerValue]

theorem listItems_eq_ok_iff {tag : String} {f : Form} {items : List Form} :
    listItems tag f = .ok items ↔ f = .list items := by
  cases f <;> simp [listItems]

/-! ## Names -/

/-- The names of the declared variables. -/
def Scope.names (scope : Scope) : List String :=
  scope.map Var.name

theorem Scope.exists_find_iff {scope : Scope} {name : String} :
    (∃ x, scope.find? name = some x) ↔ name ∈ scope.names := by
  simp only [Scope.find?, names, ← Option.isSome_iff_exists, List.find?_isSome, List.mem_map,
    beq_iff_eq]

theorem succeeds_resolve_iff {scope : Scope} {f : Form} :
    Succeeds (scope.resolve f) ↔ ∃ name ∈ scope.names, f = .symbol name := by
  simp only [Scope.resolve, succeeds_bind_iff, symbolName_eq_ok_iff]
  refine exists_congr fun name => ?_
  rw [and_comm, ← Scope.exists_find_iff]
  refine and_congr_left fun hf => ?_
  cases hfind : scope.find? name with
  | none => simp [Succeeds]
  | some x => simp [Succeeds]

/-! ## Expressions -/

/-- The forms of expressions over the given names. -/
inductive ExprForm (names : List String) : Form → Prop where
  | integer (n : Int) : ExprForm names (.integer n)
  | name {x : String} : x ∈ names → ExprForm names (.symbol x)
  | binary (op : BinOp) {l r : Form} :
    ExprForm names l → ExprForm names r → ExprForm names (.list [.symbol op.symbol, l, r])
  | neg {e : Form} : ExprForm names e → ExprForm names (.list [.symbol "neg", e])
  | invoke (method : String) {args : List Form} :
    (∀ a ∈ args, ExprForm names a) →
      ExprForm names (.list (.symbol "invoke" :: .symbol method :: args))
  | field {x : String} (name : String) :
    x ∈ names → ExprForm names (.list [.symbol "field", .symbol x, .symbol name])

theorem ofSymbol?_eq_some_iff {tag : String} {op : BinOp} :
    BinOp.ofSymbol? tag = some op ↔ op.symbol = tag := by
  constructor
  · intro h
    unfold BinOp.ofSymbol? at h
    have hop := List.find?_some h
    exact beq_iff_eq.mp hop
  · rintro rfl
    cases op <;> rfl

theorem succeeds_inOrder_iff {α : Type} {rs : List (Except LoadError α)} :
    Succeeds (inOrder rs) ↔ ∀ r ∈ rs, Succeeds r := by
  induction rs with
  | nil => simp [inOrder, Succeeds]
  | cons r rs ih =>
    rw [inOrder, succeeds_bind_iff, List.forall_mem_cons, ← ih]
    constructor
    · rintro ⟨a, ha, h⟩
      obtain ⟨as, has, _⟩ := succeeds_bind_iff.mp h
      exact ⟨⟨a, ha⟩, as, has⟩
    · rintro ⟨⟨a, ha⟩, as, has⟩
      exact ⟨a, ha, succeeds_bind_iff.mpr ⟨as, has, succeeds_ok _⟩⟩

theorem succeeds_fieldParts_iff {scope : Scope} {items : List Form} :
    Succeeds (fieldParts scope items) ↔
      ∃ head name, ∃ x ∈ scope.names, items = [head, .symbol x, .symbol name] := by
  unfold fieldParts
  split
  next head base name =>
    simp only [succeeds_bind_iff, symbolName_eq_ok_iff]
    constructor
    · rintro ⟨x, hx, field, rfl, _⟩
      obtain ⟨y, hy, rfl⟩ := succeeds_resolve_iff.mp ⟨x, hx⟩
      exact ⟨head, field, y, hy, rfl⟩
    · rintro ⟨head', field, y, hy, h⟩
      cases h
      obtain ⟨x, hx⟩ := succeeds_resolve_iff.mpr ⟨y, hy, rfl⟩
      exact ⟨x, hx, field, rfl, succeeds_ok _⟩
  next hshape =>
    constructor
    · intro h
      exact absurd h (not_succeeds_error _)
    · rintro ⟨head, field, y, _, rfl⟩
      exact absurd rfl (hshape head (.symbol y) (.symbol field))

/-! ### One head after the other -/

section Heads

variable {scope : Scope} {args : List Form}

theorem succeeds_neg_iff :
    Succeeds (compound scope (.symbol "neg") args (args.map (expression scope))) ↔
      ∃ e, args = [e] ∧ Succeeds (expression scope e) := by
  rcases args with _ | ⟨a, _ | ⟨b, rest⟩⟩
  · exact iff_of_false (not_succeeds_error _) (by simp)
  · change Succeeds (expression scope a >>= fun e => pure (Expr.neg e)) ↔ _
    rw [succeeds_bind_pure_iff]
    simp
  · exact iff_of_false (not_succeeds_error _) (by simp)

theorem succeeds_invoke_iff :
    Succeeds (compound scope (.symbol "invoke") args (args.map (expression scope))) ↔
      ∃ method rest, args = .symbol method :: rest ∧ ∀ a ∈ rest, Succeeds (expression scope a) := by
  cases args with
  | nil => exact iff_of_false (not_succeeds_error _) (by simp)
  | cons method rest =>
    have hrest : Succeeds (inOrder (rest.map (expression scope))) ↔
        ∀ a ∈ rest, Succeeds (expression scope a) := by
      rw [succeeds_inOrder_iff, List.forall_mem_map]
    change Succeeds (symbolName method >>= fun m =>
      inOrder (rest.map (expression scope)) >>= fun es => pure (Expr.call m es)) ↔ _
    rw [succeeds_bind_iff]
    constructor
    · rintro ⟨m, hm, h⟩
      rw [succeeds_bind_pure_iff, hrest] at h
      exact ⟨m, rest, by rw [symbolName_eq_ok_iff.mp hm], h⟩
    · rintro ⟨m, rest', heq, h⟩
      cases heq
      exact ⟨m, rfl, succeeds_bind_pure_iff.mpr (hrest.mpr h)⟩

theorem succeeds_field_iff :
    Succeeds (compound scope (.symbol "field") args (args.map (expression scope))) ↔
      ∃ name, ∃ x ∈ scope.names, args = [.symbol x, .symbol name] := by
  change Succeeds (fieldParts scope (.symbol "field" :: args) >>= fun parts =>
    pure (Expr.field parts.1 parts.2)) ↔ _
  rw [succeeds_bind_pure_iff, succeeds_fieldParts_iff]
  simp

/-- An operator is spelled like no other head, so a list headed by one is an operation. -/
theorem compound_operator (op : BinOp) (values : List (Except LoadError Expr)) :
    compound scope (.symbol op.symbol) args values =
      match values with
      | [left, right] => left >>= fun l => right >>= fun r => pure (.binary op l r)
      | _ => wrongLength op.symbol (.symbol op.symbol :: args) := by
  cases op <;> rfl

theorem succeeds_operator_iff {op : BinOp} :
    Succeeds (compound scope (.symbol op.symbol) args (args.map (expression scope))) ↔
      ∃ l r, args = [l, r] ∧ Succeeds (expression scope l) ∧ Succeeds (expression scope r) := by
  rw [compound_operator]
  rcases args with _ | ⟨a, _ | ⟨b, _ | ⟨c, rest⟩⟩⟩
  · exact iff_of_false (not_succeeds_error _) (by simp)
  · exact iff_of_false (not_succeeds_error _) (by simp)
  · change Succeeds (expression scope a >>= fun l => expression scope b >>= fun r =>
      pure (Expr.binary op l r)) ↔ _
    simp only [succeeds_bind_iff (r := expression scope a), succeeds_bind_pure_iff]
    simp [Succeeds]
  · exact iff_of_false (not_succeeds_error _) (by simp)

/-- Which heads there are. -/
theorem head_of_succeeds {head : Form} {values : List (Except LoadError Expr)}
    (h : Succeeds (compound scope head args values)) :
    head = .symbol "neg" ∨ head = .symbol "invoke" ∨ head = .symbol "field" ∨
      ∃ op : BinOp, head = .symbol op.symbol := by
  obtain ⟨tag, htag, h⟩ := succeeds_bind_iff.mp h
  obtain rfl := symbolName_eq_ok_iff.mp htag
  by_contra hno
  simp only [Form.symbol.injEq, not_or, not_exists] at hno
  obtain ⟨hneg, hinvoke, hfield, hop⟩ := hno
  have hnone : BinOp.ofSymbol? tag = none := by
    cases hfind : BinOp.ofSymbol? tag with
    | none => rfl
    | some op => exact absurd (ofSymbol?_eq_some_iff.mp hfind).symm (hop op)
  rw [if_neg hneg, if_neg hinvoke, if_neg hfield, hnone] at h
  exact not_succeeds_error _ h

end Heads

theorem expression_list (scope : Scope) (head : Form) (args : List Form) :
    expression scope (.list (head :: args)) =
      compound scope head args (args.map (expression scope)) := by
  rw [expression, eachExpression_eq_map]

theorem exprForm_of_succeeds {scope : Scope} {form : Form} :
    Succeeds (expression scope form) → ExprForm scope.names form := by
  -- by induction on the form: a list is loaded only if the arguments that count are
  induction form using Form.inductionOnLists with
  | hlist items ih =>
    intro h
    cases items with
    | nil => exact absurd h (not_succeeds_error _)
    | cons head args =>
      rw [expression_list] at h
      rw [List.forall_mem_cons] at ih
      rcases head_of_succeeds h with rfl | rfl | rfl | ⟨op, rfl⟩
      · obtain ⟨e, rfl, he⟩ := succeeds_neg_iff.mp h
        exact .neg (ih.2 e (by simp) he)
      · obtain ⟨method, rest, rfl, hrest⟩ := succeeds_invoke_iff.mp h
        exact .invoke method fun a ha => ih.2 a (List.mem_cons_of_mem _ ha) (hrest a ha)
      · obtain ⟨name, x, hx, rfl⟩ := succeeds_field_iff.mp h
        exact .field name hx
      · obtain ⟨l, r, rfl, hl, hr⟩ := succeeds_operator_iff.mp h
        exact .binary op (ih.2 l (by simp) hl) (ih.2 r (by simp) hr)
  | hatom form hform =>
    intro h
    cases form with
    | integer n => exact .integer n
    | symbol s =>
      rw [expression, succeeds_bind_pure_iff, succeeds_resolve_iff] at h
      obtain ⟨name, hname, heq⟩ := h
      cases heq
      exact .name hname
    | list items => exact absurd rfl (hform items)
    | _ => exact absurd h (not_succeeds_error _)

theorem succeeds_of_exprForm {scope : Scope} {form : Form} (h : ExprForm scope.names form) :
    Succeeds (expression scope form) := by
  induction h with
  | integer n => exact succeeds_ok _
  | name hx =>
    rw [expression, succeeds_bind_pure_iff, succeeds_resolve_iff]
    exact ⟨_, hx, rfl⟩
  | binary op _ _ ihl ihr =>
    rw [expression_list, succeeds_operator_iff]
    exact ⟨_, _, rfl, ihl, ihr⟩
  | neg _ ih =>
    rw [expression_list, succeeds_neg_iff]
    exact ⟨_, rfl, ih⟩
  | invoke method _ ih =>
    rw [expression_list, succeeds_invoke_iff]
    exact ⟨method, _, rfl, ih⟩
  | field name hx =>
    rw [expression_list, succeeds_field_iff]
    exact ⟨name, _, hx, rfl⟩

/-- Exactly the expressions of the grammar are loaded. -/
theorem succeeds_expression_iff {scope : Scope} {form : Form} :
    Succeeds (expression scope form) ↔ ExprForm scope.names form :=
  ⟨exprForm_of_succeeds, succeeds_of_exprForm⟩

/-! ## Statements -/

/-- The forms of the targets of assignments over the given names; a list that names a field may have
any of the given heads. -/
inductive TargetForm (heads : Form → Prop) (names : List String) : Form → Prop where
  | name {x : String} : x ∈ names → TargetForm heads names (.symbol x)
  | field {head : Form} {x : String} (name : String) :
    heads head → x ∈ names → TargetForm heads names (.list [head, .symbol x, .symbol name])

/-- The forms of statements over the given names. -/
inductive StmtForm (heads : Form → Prop) (names : List String) : Form → Prop where
  | assign {t e : Form} :
    TargetForm heads names t → ExprForm names e →
      StmtForm heads names (.list [.symbol "assign", t, e])
  | branch {e : Form} : ExprForm names e → StmtForm heads names (.list [.symbol "if", e])
  | jump : StmtForm heads names (.list [.symbol "goto"])
  | leave : StmtForm heads names (.list [.symbol "return"])
  | ret {e : Form} : ExprForm names e → StmtForm heads names (.list [.symbol "return", e])
  | nop : StmtForm heads names (.list [.symbol "nop"])
  | invoke (method : String) {args : List Form} :
    (∀ a ∈ args, ExprForm names a) →
      StmtForm heads names (.list (.symbol "invoke" :: .symbol method :: args))

/-- The head of the list that an assignment has for its target. -/
def targetHead? : Form → Option Form
  | .list [.symbol "assign", .list (head :: _), _] => some head
  | _ => none

theorem succeeds_target_iff {scope : Scope} {form : Form} :
    Succeeds (target scope form) ↔ TargetForm (fun _ => True) scope.names form := by
  unfold target
  split
  next items =>
    rw [succeeds_bind_pure_iff, succeeds_fieldParts_iff]
    constructor
    · rintro ⟨head, name, x, hx, rfl⟩
      exact .field name trivial hx
    · intro h
      cases h with
      | field name _ hx => exact ⟨_, name, _, hx, rfl⟩
  next hlist =>
    rw [succeeds_bind_pure_iff, succeeds_resolve_iff]
    constructor
    · rintro ⟨name, hname, rfl⟩
      exact .name hname
    · intro h
      cases h with
      | name hx => exact ⟨_, hx, rfl⟩
      | field => exact absurd rfl (hlist _)

theorem succeeds_expressions_iff {scope : Scope} {forms : List Form} :
    Succeeds (expressions scope forms) ↔ ∀ f ∈ forms, ExprForm scope.names f := by
  rw [expressions, eachExpression_eq_map, succeeds_inOrder_iff, List.forall_mem_map]
  exact forall₂_congr fun _ _ => succeeds_expression_iff

/-! ### One kind of statement after the other -/

section Statements

variable (scope : Scope)

theorem statement_assign (t e : Form) :
    statement scope (.list [.symbol "assign", t, e]) =
      (target scope t >>= fun t => expression scope e >>= fun e => pure (.assign t e)) :=
  rfl

theorem statement_branch (e : Form) :
    statement scope (.list [.symbol "if", e]) =
      (expression scope e >>= fun e => pure (.branch e)) :=
  rfl

theorem statement_ret (e : Form) :
    statement scope (.list [.symbol "return", e]) =
      (expression scope e >>= fun e => pure (.ret (some e))) :=
  rfl

theorem statement_invoke (method : Form) (args : List Form) :
    statement scope (.list (.symbol "invoke" :: method :: args)) =
      (symbolName method >>= fun m => expressions scope args >>= fun es => pure (.call m es)) :=
  rfl

/-- The lists that are taken for statements, whatever stands in them. -/
inductive StmtShape : Form → Prop where
  | assign (t e : Form) : StmtShape (.list [.symbol "assign", t, e])
  | branch (e : Form) : StmtShape (.list [.symbol "if", e])
  | jump : StmtShape (.list [.symbol "goto"])
  | leave : StmtShape (.list [.symbol "return"])
  | ret (e : Form) : StmtShape (.list [.symbol "return", e])
  | nop : StmtShape (.list [.symbol "nop"])
  | invoke (method : Form) (args : List Form) :
    StmtShape (.list (.symbol "invoke" :: method :: args))

/-- Whatever else is looked at is refused at once, for itself or for its head. -/
theorem stmtShape_or_refused (form : Form) :
    StmtShape form ∨
      ∃ what part, statement scope form = .error (.misfit what part) ∧ part.PartOf form := by
  cases form with
  | list items =>
    rcases items with _ | ⟨head, args⟩
    · exact Or.inr ⟨_, _, rfl, .refl⟩
    · cases head with
      | symbol tag =>
        unfold statement
        simp only [listItems, symbolName, bind, Except.bind]
        split
        next => exact Or.inl (.assign _ _)
        next => exact Or.inl (.branch _)
        next => exact Or.inl .jump
        next => exact Or.inl .leave
        next => exact Or.inl (.ret _)
        next => exact Or.inl .nop
        next => exact Or.inl (.invoke _ _)
        next =>
          -- a wrong number of elements or an unknown head
          split
          · exact Or.inr ⟨_, _, rfl, .refl⟩
          · exact Or.inr ⟨_, _, rfl, .refl⟩
      | _ => exact Or.inr ⟨_, _, rfl, Form.PartOf.refl.element List.mem_cons_self⟩
  | _ => exact Or.inr ⟨_, _, rfl, .refl⟩

end Statements

theorem stmtForm_of_succeeds {scope : Scope} {form : Form} (h : Succeeds (statement scope form)) :
    StmtForm (fun _ => True) scope.names form := by
  rcases stmtShape_or_refused scope form with hshape | ⟨what, part, herror, _⟩
  · cases hshape with
    | assign t e =>
      rw [statement_assign, succeeds_bind_iff] at h
      obtain ⟨t', ht, h⟩ := h
      rw [succeeds_bind_pure_iff, succeeds_expression_iff] at h
      exact .assign (succeeds_target_iff.mp ⟨t', ht⟩) h
    | branch e =>
      rw [statement_branch, succeeds_bind_pure_iff, succeeds_expression_iff] at h
      exact .branch h
    | jump => exact .jump
    | leave => exact .leave
    | ret e =>
      rw [statement_ret, succeeds_bind_pure_iff, succeeds_expression_iff] at h
      exact .ret h
    | nop => exact .nop
    | invoke method args =>
      rw [statement_invoke, succeeds_bind_iff] at h
      obtain ⟨m, hm, h⟩ := h
      rw [succeeds_bind_pure_iff, succeeds_expressions_iff] at h
      rw [symbolName_eq_ok_iff.mp hm]
      exact .invoke m h
  · rw [herror] at h
    exact absurd h (not_succeeds_error _)

theorem succeeds_of_stmtForm {scope : Scope} {form : Form}
    (h : StmtForm (fun _ => True) scope.names form) : Succeeds (statement scope form) := by
  cases h with
  | assign ht he =>
    obtain ⟨t', ht⟩ := succeeds_target_iff.mpr ht
    rw [statement_assign, succeeds_bind_iff]
    exact ⟨t', ht, succeeds_bind_pure_iff.mpr (succeeds_expression_iff.mpr he)⟩
  | branch he =>
    rw [statement_branch, succeeds_bind_pure_iff]
    exact succeeds_expression_iff.mpr he
  | jump => exact succeeds_ok Stmt.jump
  | leave => exact succeeds_ok (Stmt.ret none)
  | ret he =>
    rw [statement_ret, succeeds_bind_pure_iff]
    exact succeeds_expression_iff.mpr he
  | nop => exact succeeds_ok Stmt.nop
  | invoke method hargs =>
    rw [statement_invoke, succeeds_bind_iff]
    exact ⟨method, rfl, succeeds_bind_pure_iff.mpr (succeeds_expressions_iff.mpr hargs)⟩

/-- Exactly the statements of the grammar are loaded, if a field may be named by a list with any
head. -/
theorem succeeds_statement_iff {scope : Scope} {form : Form} :
    Succeeds (statement scope form) ↔ StmtForm (fun _ => True) scope.names form :=
  ⟨stmtForm_of_succeeds, succeeds_of_stmtForm⟩

/-- With fewer heads to choose from, a statement has one of them wherever its target is a list. -/
theorem stmtForm_iff {heads : Form → Prop} {names : List String} {form : Form} :
    StmtForm heads names form ↔
      StmtForm (fun _ => True) names form ∧ ∀ head ∈ targetHead? form, heads head := by
  constructor
  · intro h
    cases h with
    | assign ht he =>
      cases ht with
      | name hx => exact ⟨.assign (.name hx) he, nofun⟩
      | field name hhead hx =>
        refine ⟨.assign (.field name trivial hx) he, ?_⟩
        intro head hmem
        cases hmem
        exact hhead
    | branch he => exact ⟨.branch he, nofun⟩
    | jump => exact ⟨.jump, nofun⟩
    | leave => exact ⟨.leave, nofun⟩
    | ret he => exact ⟨.ret he, nofun⟩
    | nop => exact ⟨.nop, nofun⟩
    | invoke method hargs => exact ⟨.invoke method hargs, nofun⟩
  · rintro ⟨h, hhead⟩
    cases h with
    | assign ht he =>
      cases ht with
      | name hx => exact .assign (.name hx) he
      | field name _ hx => exact .assign (.field name (hhead _ rfl) hx) he
    | branch he => exact .branch he
    | jump => exact .jump
    | leave => exact .leave
    | ret he => exact .ret he
    | nop => exact .nop
    | invoke method hargs => exact .invoke method hargs

end Loading

end ConstantFlow

import ConstantFlow.Proofs.Loading.Grammar
import Mathlib.Data.List.Nodup

/-!
# Which procedures are loaded

A procedure is loaded in three goes: its items are gathered, its nodes are placed, and the edges
are added. Each go succeeds exactly if the forms that it looks at follow the grammar, so exactly the
procedures of the grammar are loaded.

Main results:

* `foldlM_add_eq_ok_iff`: when items are gathered, and what is gathered
* `succeeds_assemble_iff`: when nodes are placed and edges added
* `succeeds_procedure_iff`: exactly the procedures of the grammar are loaded
-/

namespace ConstantFlow.Loading

/-! ## What items say -/

/-- The variable of a declaration. -/
def declared? : Form → Option Var
  | .list [.symbol name, .symbol type] => some { name, type := .ofName type }
  | _ => none

/-- The variables that an item declares as parameters. -/
def paramsIn : Form → List Var
  | .list (.symbol "params" :: decls) => decls.filterMap declared?
  | _ => []

/-- The variables that an item declares, as parameters or otherwise. -/
def declaredIn : Form → List Var
  | .list (.symbol "params" :: decls) => decls.filterMap declared?
  | .list (.symbol "vars" :: decls) => decls.filterMap declared?
  | _ => []

/-- The node that an item writes down. -/
def nodeItem? : Form → Option NodeItem
  | .list (.symbol "node" :: id :: code :: succs) =>
    some { form := .list (.symbol "node" :: id :: code :: succs), id, code, succs }
  | _ => none

/-- The number of a node. -/
def NodeItem.number? (item : NodeItem) : Option Int :=
  match item.id with
  | .integer n => some n
  | _ => none

/-- The numbers of several nodes. -/
def numbers (nodes : List NodeItem) : List Int :=
  nodes.filterMap NodeItem.number?

/-! ## Declarations -/

/-- The form of a declaration: a name and a type. -/
def DeclForm (form : Form) : Prop :=
  ∃ name type, form = .list [.symbol name, .symbol type]

theorem declForm_iff {form : Form} : DeclForm form ↔ ∃ x, declared? form = some x := by
  constructor
  · rintro ⟨name, type, rfl⟩
    exact ⟨_, rfl⟩
  · rintro ⟨x, h⟩
    unfold declared? at h
    split at h
    next name type => exact ⟨name, type, rfl⟩
    next => cases h

theorem declaration_eq_ok_iff {scope : Scope} {form : Form} {x : Var} :
    declaration scope form = .ok x ↔ declared? form = some x ∧ x.name ∉ scope.names := by
  unfold declaration
  rw [bind_eq_ok_iff]
  constructor
  · rintro ⟨items, hitems, h⟩
    obtain rfl := listItems_eq_ok_iff.mp hitems
    split at h
    next nameForm typeForm =>
      obtain ⟨name, hname, h⟩ := bind_eq_ok_iff.mp h
      obtain rfl := symbolName_eq_ok_iff.mp hname
      split at h
      · cases h
      case isFalse hfree =>
        obtain ⟨type, htype, h⟩ := bind_eq_ok_iff.mp h
        obtain rfl := symbolName_eq_ok_iff.mp htype
        cases h
        refine ⟨rfl, ?_⟩
        rw [← Scope.exists_find_iff, ← Option.isSome_iff_exists]
        exact hfree
    next => cases h
  · rintro ⟨h, hfree⟩
    unfold declared? at h
    split at h
    next name type =>
      cases h
      rw [← Scope.exists_find_iff, ← Option.isSome_iff_exists] at hfree
      refine ⟨_, rfl, ?_⟩
      simp [symbolName, hfree, bind, Except.bind, pure, Except.pure]
    next => cases h

/-- The names are new: none stands there twice, and none is in scope. -/
def Fresh (scope : Scope) (xs : List Var) : Prop :=
  (Scope.names xs).Nodup ∧ List.Disjoint scope.names (Scope.names xs)

theorem Scope.names_append (scope : Scope) (xs : List Var) :
    Scope.names (scope ++ xs) = scope.names ++ Scope.names xs :=
  List.map_append

/-- Names are new together if the first ones are and the others are to them. -/
theorem fresh_append_iff {scope : Scope} {xs ys : List Var} :
    Fresh scope (xs ++ ys) ↔ Fresh scope xs ∧ Fresh (scope ++ xs) ys := by
  unfold Fresh
  rw [Scope.names_append, Scope.names_append, List.nodup_append', List.disjoint_append_right,
    List.disjoint_append_left]
  tauto

theorem fresh_singleton_iff {scope : Scope} {x : Var} : Fresh scope [x] ↔ x.name ∉ scope.names := by
  simp [Fresh, Scope.names]

theorem declarations_eq_ok_iff {scope : Scope} {forms : List Form} {xs : List Var} :
    declarations scope forms = .ok xs ↔
      (∀ f ∈ forms, DeclForm f) ∧ xs = forms.filterMap declared? ∧ Fresh scope xs := by
  -- by induction on the forms, for every scope: a declared name is in scope for those behind it
  induction forms generalizing scope xs with
  | nil =>
    rw [declarations, Except.ok.injEq]
    constructor
    · rintro rfl
      exact ⟨nofun, rfl, List.nodup_nil, List.disjoint_nil_right _⟩
    · rintro ⟨_, rfl, _⟩
      rfl
  | cons form forms ih =>
    rw [declarations, bind_eq_ok_iff]
    constructor
    · rintro ⟨x, hx, h⟩
      obtain ⟨ys, hys, h⟩ := bind_eq_ok_iff.mp h
      cases h
      obtain ⟨hdecl, hfree⟩ := declaration_eq_ok_iff.mp hx
      obtain ⟨hforms, rfl, hfresh⟩ := ih.mp hys
      refine ⟨?_, ?_, ?_⟩
      · exact List.forall_mem_cons.mpr ⟨declForm_iff.mpr ⟨x, hdecl⟩, hforms⟩
      · rw [List.filterMap_cons_some hdecl]
      · exact fresh_append_iff.mpr ⟨fresh_singleton_iff.mpr hfree, hfresh⟩
    · rintro ⟨hforms, rfl, hfresh⟩
      rw [List.forall_mem_cons] at hforms
      obtain ⟨x, hdecl⟩ := declForm_iff.mp hforms.1
      rw [List.filterMap_cons_some hdecl] at hfresh ⊢
      obtain ⟨hfree, hfresh⟩ := fresh_append_iff.mp (List.singleton_append ▸ hfresh)
      have hx := declaration_eq_ok_iff.mpr ⟨hdecl, fresh_singleton_iff.mp hfree⟩
      have hxs := ih.mpr ⟨hforms.2, rfl, hfresh⟩
      exact ⟨x, hx, bind_eq_ok_iff.mpr ⟨_, hxs, rfl⟩⟩

/-! ## Gathering items -/

/-- What an item looks like from outside: a list of declarations, or a node with a number and a
statement, whatever these are. -/
inductive ItemShape : Form → Prop where
  | params {decls : List Form} :
    (∀ d ∈ decls, DeclForm d) → ItemShape (.list (.symbol "params" :: decls))
  | vars {decls : List Form} :
    (∀ d ∈ decls, DeclForm d) → ItemShape (.list (.symbol "vars" :: decls))
  | node (id code : Form) (succs : List Form) :
    ItemShape (.list (.symbol "node" :: id :: code :: succs))

/-- A draft with everything that the items say. -/
def Draft.gather (d : Draft) (items : List Form) : Draft where
  scope := d.scope ++ items.flatMap declaredIn
  params := d.params ++ items.flatMap paramsIn
  nodes := d.nodes ++ items.filterMap nodeItem?

/-- Whatever is made of declarations, they have to be declarations and to declare new names. -/
theorem bind_declarations_eq_ok_iff {scope : Scope} {decls : List Form} {f : List Var → Draft}
    {d : Draft} :
    (declarations scope decls >>= fun xs => pure (f xs)) = .ok d ↔
      (∀ decl ∈ decls, DeclForm decl) ∧ Fresh scope (decls.filterMap declared?) ∧
        d = f (decls.filterMap declared?) := by
  rw [bind_eq_ok_iff]
  constructor
  · rintro ⟨xs, hxs, h⟩
    cases h
    obtain ⟨hdecls, rfl, hfresh⟩ := declarations_eq_ok_iff.mp hxs
    exact ⟨hdecls, hfresh, rfl⟩
  · rintro ⟨hdecls, hfresh, rfl⟩
    exact ⟨_, declarations_eq_ok_iff.mpr ⟨hdecls, rfl, hfresh⟩, rfl⟩

theorem add_params_eq_ok_iff {d d' : Draft} {decls : List Form} :
    d.add (.list (.symbol "params" :: decls)) = .ok d' ↔
      (∀ decl ∈ decls, DeclForm decl) ∧ Fresh d.scope (decls.filterMap declared?) ∧
        d' = d.gather [.list (.symbol "params" :: decls)] := by
  change (declarations d.scope decls >>= fun xs =>
    pure { d with scope := d.scope ++ xs, params := d.params ++ xs }) = .ok d' ↔ _
  rw [bind_declarations_eq_ok_iff]
  simp [Draft.gather, declaredIn, paramsIn, nodeItem?]

theorem add_vars_eq_ok_iff {d d' : Draft} {decls : List Form} :
    d.add (.list (.symbol "vars" :: decls)) = .ok d' ↔
      (∀ decl ∈ decls, DeclForm decl) ∧ Fresh d.scope (decls.filterMap declared?) ∧
        d' = d.gather [.list (.symbol "vars" :: decls)] := by
  change (declarations d.scope decls >>= fun xs =>
    pure { d with scope := d.scope ++ xs }) = .ok d' ↔ _
  rw [bind_declarations_eq_ok_iff]
  simp [Draft.gather, declaredIn, paramsIn, nodeItem?]

theorem add_node (d : Draft) (id code : Form) (succs : List Form) :
    d.add (.list (.symbol "node" :: id :: code :: succs)) =
      .ok (d.gather [.list (.symbol "node" :: id :: code :: succs)]) := by
  change Except.ok _ = _
  simp [Draft.gather, declaredIn, paramsIn, nodeItem?]

/-- Which items there are. -/
theorem tag_of_add {d d' : Draft} {item : Form} (h : d.add item = .ok d') :
    (∃ decls, item = .list (.symbol "params" :: decls)) ∨
      (∃ decls, item = .list (.symbol "vars" :: decls)) ∨
        ∃ id code succs, item = .list (.symbol "node" :: id :: code :: succs) := by
  unfold Draft.add at h
  obtain ⟨items, hitems, h⟩ := bind_eq_ok_iff.mp h
  obtain rfl := listItems_eq_ok_iff.mp hitems
  split at h
  next => cases h
  next =>
    obtain ⟨tag, htag, h⟩ := bind_eq_ok_iff.mp h
    obtain rfl := symbolName_eq_ok_iff.mp htag
    split at h
    case isTrue hparams => exact Or.inl ⟨_, by rw [hparams]⟩
    case isFalse =>
      split at h
      case isTrue hvars => exact Or.inr (Or.inl ⟨_, by rw [hvars]⟩)
      case isFalse =>
        split at h
        case isTrue hnode =>
          split at h
          next => exact Or.inr (Or.inr ⟨_, _, _, by rw [hnode]⟩)
          next => cases h
        case isFalse => cases h

/-- An item is gathered exactly if it has the shape of one and declares new names only. -/
theorem add_eq_ok_iff {d d' : Draft} {item : Form} :
    d.add item = .ok d' ↔
      ItemShape item ∧ Fresh d.scope (declaredIn item) ∧ d' = d.gather [item] := by
  constructor
  · intro h
    rcases tag_of_add h with ⟨decls, rfl⟩ | ⟨decls, rfl⟩ | ⟨id, code, succs, rfl⟩
    · obtain ⟨hdecls, hfresh⟩ := add_params_eq_ok_iff.mp h
      exact ⟨.params hdecls, hfresh⟩
    · obtain ⟨hdecls, hfresh⟩ := add_vars_eq_ok_iff.mp h
      exact ⟨.vars hdecls, hfresh⟩
    · rw [add_node, Except.ok.injEq] at h
      exact ⟨.node id code succs, ⟨List.nodup_nil, List.disjoint_nil_right _⟩, h.symm⟩
  · rintro ⟨hshape, hfresh, rfl⟩
    cases hshape with
    | params hdecls => exact add_params_eq_ok_iff.mpr ⟨hdecls, hfresh, rfl⟩
    | vars hdecls => exact add_vars_eq_ok_iff.mpr ⟨hdecls, hfresh, rfl⟩
    | node id code succs => exact add_node d id code succs

theorem gather_cons (d : Draft) (item : Form) (items : List Form) :
    d.gather (item :: items) = (d.gather [item]).gather items := by
  cases h : nodeItem? item <;> simp [Draft.gather, h]

/-- Items are gathered exactly if all have the shape of one and no name is declared twice. -/
theorem foldlM_add_eq_ok_iff {items : List Form} {d d' : Draft} :
    items.foldlM Draft.add d = .ok d' ↔
      (∀ item ∈ items, ItemShape item) ∧ Fresh d.scope (items.flatMap declaredIn) ∧
        d' = d.gather items := by
  induction items generalizing d with
  | nil =>
    have hgather : d.gather [] = d := by simp [Draft.gather]
    rw [List.foldlM_nil, hgather]
    constructor
    · intro h
      cases h
      exact ⟨nofun, ⟨List.nodup_nil, List.disjoint_nil_right _⟩, rfl⟩
    · rintro ⟨_, _, rfl⟩
      rfl
  | cons item items ih =>
    rw [List.foldlM_cons, bind_eq_ok_iff, List.flatMap_cons, fresh_append_iff,
      List.forall_mem_cons, gather_cons]
    have hscope : (d.gather [item]).scope = d.scope ++ declaredIn item := by
      simp [Draft.gather]
    constructor
    · rintro ⟨e, he, h⟩
      obtain ⟨hshape, hfresh, rfl⟩ := add_eq_ok_iff.mp he
      obtain ⟨hshapes, hrest, rfl⟩ := ih.mp h
      exact ⟨⟨hshape, hshapes⟩, ⟨hfresh, hscope ▸ hrest⟩, rfl⟩
    · rintro ⟨⟨hshape, hshapes⟩, ⟨hfresh, hrest⟩, rfl⟩
      refine ⟨_, add_eq_ok_iff.mpr ⟨hshape, hfresh, rfl⟩, ih.mpr ⟨hshapes, ?_, rfl⟩⟩
      rw [hscope]
      exact hrest

/-! ## Placing nodes -/

theorem number?_eq_some_iff {item : NodeItem} {id : Int} :
    item.number? = some id ↔ item.id = .integer id := by
  unfold NodeItem.number?
  split
  next n hid => simp [hid]
  next hid =>
    constructor
    · nofun
    · intro h
      exact absurd h (hid id)

theorem numbers_cons {item : NodeItem} {id : Int} (h : item.id = .integer id)
    (nodes : List NodeItem) : numbers (item :: nodes) = id :: numbers nodes :=
  List.filterMap_cons_some (number?_eq_some_iff.mpr h)

/-- Placed nodes have the numbers and the successors that are written. -/
theorem placed_of_foldlM {scope : Scope} {nodes : List NodeItem} {placed next : List Placed}
    (h : nodes.foldlM (place scope) placed = .ok next) :
    next.map Placed.id = placed.map Placed.id ++ numbers nodes ∧
      next.map Placed.succs = placed.map Placed.succs ++ nodes.map NodeItem.succs := by
  induction nodes generalizing placed with
  | nil =>
    cases h
    simp [numbers]
  | cons item nodes ih =>
    rw [List.foldlM_cons, bind_eq_ok_iff] at h
    obtain ⟨more, hplace, h⟩ := h
    obtain ⟨id, code, hid, _, _, rfl⟩ := place_eq_ok_iff.mp hplace
    obtain ⟨hids, hsuccs⟩ := ih h
    rw [hids, hsuccs, numbers_cons (integerValue_eq_ok_iff.mp hid)]
    simp

/-- The node has a number and a statement. -/
def Placeable (scope : Scope) (item : NodeItem) : Prop :=
  (∃ id, item.id = .integer id) ∧ StmtForm (fun _ => True) scope.names item.code

/-- Nodes are placed exactly if each has a number and a statement and no number stands there
twice. -/
theorem succeeds_foldlM_place_iff {scope : Scope} {nodes : List NodeItem} {placed : List Placed}
    (hplaced : (placed.map Placed.id).Nodup) :
    Succeeds (nodes.foldlM (place scope) placed) ↔
      (∀ item ∈ nodes, Placeable scope item) ∧
        (placed.map Placed.id ++ numbers nodes).Nodup := by
  -- the numbers taken and those to come stay one list, which each node cuts one further on
  induction nodes generalizing placed with
  | nil => exact iff_of_true (succeeds_ok placed) ⟨nofun, by simpa [numbers] using hplaced⟩
  | cons item nodes ih =>
    rw [List.foldlM_cons, succeeds_bind_iff, List.forall_mem_cons]
    constructor
    · rintro ⟨more, hplace, h⟩
      obtain ⟨id, code, hid, hfree, hcode, rfl⟩ := place_eq_ok_iff.mp hplace
      rw [integerValue_eq_ok_iff] at hid
      have hids : (placed.map Placed.id ++ [id]).Nodup :=
        hplaced.append (List.nodup_singleton id) (by simpa using hfree)
      obtain ⟨hnodes, hnodup⟩ := (ih (by simpa using hids)).mp h
      refine ⟨⟨⟨⟨id, hid⟩, succeeds_statement_iff.mp ⟨code, hcode⟩⟩, hnodes⟩, ?_⟩
      rw [numbers_cons hid]
      simpa using hnodup
    · rintro ⟨⟨⟨⟨id, hid⟩, hcode⟩, hnodes⟩, hnodup⟩
      obtain ⟨code, hcode⟩ := succeeds_statement_iff.mpr hcode
      rw [numbers_cons hid, ← List.singleton_append, ← List.append_assoc] at hnodup
      have hids := hnodup.of_append_left
      have hfree : placed.any (·.id == id) = false := by
        simpa using (List.nodup_append'.mp hids).2.2
      have hplace := place_eq_ok_iff.mpr
        ⟨id, code, integerValue_eq_ok_iff.mpr hid, hfree, hcode, rfl⟩
      refine ⟨_, hplace, (ih (by simpa using hids)).mpr ⟨hnodes, ?_⟩⟩
      simpa using hnodup

/-! ## Adding edges -/

/-- A fold succeeds exactly if every step does, where what came before does not matter. -/
theorem succeeds_foldlM_iff {α β ε : Type} {P : α → Prop} {f : β → α → Except ε β}
    (hf : ∀ b x, Succeeds (f b x) ↔ P x) {xs : List α} {b : β} :
    Succeeds (xs.foldlM f b) ↔ ∀ x ∈ xs, P x := by
  induction xs generalizing b with
  | nil => exact iff_of_true (succeeds_ok b) nofun
  | cons x xs ih =>
    rw [List.foldlM_cons, succeeds_bind_iff, List.forall_mem_cons, ← hf b x]
    constructor
    · rintro ⟨c, hc, h⟩
      exact ⟨⟨c, hc⟩, ih.mp h⟩
    · rintro ⟨⟨c, hc⟩, h⟩
      exact ⟨c, hc, ih.mpr h⟩

theorem succeeds_mapM_iff {α β ε : Type} {f : α → Except ε β} {xs : List α} :
    Succeeds (xs.mapM f) ↔ ∀ x ∈ xs, Succeeds (f x) := by
  induction xs with
  | nil => exact iff_of_true (succeeds_ok []) nofun
  | cons x xs ih =>
    rw [List.mapM_cons, succeeds_bind_iff, List.forall_mem_cons, ← ih]
    constructor
    · rintro ⟨c, hc, h⟩
      exact ⟨⟨c, hc⟩, succeeds_bind_pure_iff.mp h⟩
    · rintro ⟨⟨c, hc⟩, h⟩
      exact ⟨c, hc, succeeds_bind_pure_iff.mpr h⟩

theorem succeeds_successor_iff {placed : List Placed} {form : Form} :
    Succeeds (successor placed form) ↔ ∃ id ∈ placed.map Placed.id, form = .integer id := by
  unfold successor
  rw [succeeds_bind_iff]
  refine exists_congr fun id => ?_
  rw [integerValue_eq_ok_iff, and_comm]
  refine and_congr_left fun _ => ?_
  split
  next p hfind =>
    have hid : p.id = id := by simpa using List.find?_some hfind
    refine iff_of_true (succeeds_ok _) (List.mem_map.mpr ⟨p, List.mem_of_find?_eq_some hfind, hid⟩)
  next hfind =>
    refine iff_of_false (not_succeeds_error _) ?_
    intro hmem
    obtain ⟨p, hp, hid⟩ := List.mem_map.mp hmem
    exact List.find?_eq_none.mp hfind p hp (by simpa using hid)

theorem succeeds_connect_iff {placed : List Placed} {g : FlowGraph} {p : Placed} :
    Succeeds (connect placed g p) ↔
      ∀ s ∈ p.succs, ∃ id ∈ placed.map Placed.id, s = .integer id := by
  rw [connect, succeeds_bind_pure_iff, destinations]
  split
  case isTrue hnone =>
    rw [List.isEmpty_iff.mp hnone]
    exact iff_of_true (succeeds_ok _) (by simp)
  case isFalse =>
    rw [succeeds_mapM_iff]
    exact forall₂_congr fun _ _ => succeeds_successor_iff

theorem succeeds_assemble_iff {name : String} {d : Draft} :
    Succeeds (assemble name d) ↔
      (∀ item ∈ d.nodes, Placeable d.scope item) ∧ (numbers d.nodes).Nodup ∧
        ∀ item ∈ d.nodes, ∀ s ∈ item.succs, ∃ id ∈ numbers d.nodes, s = .integer id := by
  have hplace : Succeeds (d.nodes.foldlM (place d.scope) []) ↔
      (∀ item ∈ d.nodes, Placeable d.scope item) ∧ (numbers d.nodes).Nodup :=
    @succeeds_foldlM_place_iff d.scope d.nodes [] List.nodup_nil
  -- once the nodes are placed, the edges that leave them go by what is written
  have hconnect : ∀ placed (g : FlowGraph), d.nodes.foldlM (place d.scope) [] = .ok placed →
      (Succeeds (placed.foldlM (connect placed) g) ↔
        ∀ item ∈ d.nodes, ∀ s ∈ item.succs, ∃ id ∈ numbers d.nodes, s = .integer id) := by
    intro placed g hplaced
    obtain ⟨hids, hsuccs⟩ := placed_of_foldlM hplaced
    rw [List.map_nil, List.nil_append] at hids hsuccs
    calc Succeeds (placed.foldlM (connect placed) g)
        ↔ ∀ p ∈ placed, ∀ s ∈ p.succs, ∃ id ∈ placed.map Placed.id, s = .integer id :=
          succeeds_foldlM_iff (f := connect placed) fun _ _ => succeeds_connect_iff
      _ ↔ ∀ succs ∈ placed.map Placed.succs, ∀ s ∈ succs, ∃ id ∈ placed.map Placed.id,
            s = .integer id := by rw [List.forall_mem_map]
      _ ↔ _ := by rw [hids, hsuccs, List.forall_mem_map]
  rw [← and_assoc, ← hplace, assemble, succeeds_bind_iff]
  constructor
  · rintro ⟨placed, hplaced, h⟩
    exact ⟨⟨placed, hplaced⟩, (hconnect placed _ hplaced).mp h⟩
  · rintro ⟨⟨placed, hplaced⟩, h⟩
    exact ⟨placed, hplaced, (hconnect placed _ hplaced).mpr h⟩

/-! ## Procedures -/

/-- The nodes that the items of a procedure write down. -/
def nodesIn (items : List Form) : List NodeItem :=
  items.filterMap nodeItem?

/-- The names that the items of a procedure declare. -/
def namesIn (items : List Form) : List String :=
  Scope.names (items.flatMap declaredIn)

/-- The forms of the items of a procedure with the given names and numbers of nodes. -/
inductive ItemForm (heads : Form → Prop) (names : List String) (ids : List Int) : Form → Prop where
  | params {decls : List Form} :
    (∀ d ∈ decls, DeclForm d) → ItemForm heads names ids (.list (.symbol "params" :: decls))
  | vars {decls : List Form} :
    (∀ d ∈ decls, DeclForm d) → ItemForm heads names ids (.list (.symbol "vars" :: decls))
  | node (id : Int) {code : Form} {succs : List Form} :
    StmtForm heads names code → (∀ s ∈ succs, ∃ m ∈ ids, s = .integer m) →
      ItemForm heads names ids (.list (.symbol "node" :: .integer id :: code :: succs))

/-- The forms of procedures: no name is declared twice, there is a node, and no two nodes have the
same number. -/
inductive ProcedureForm (heads : Form → Prop) : Form → Prop where
  | mk (name : String) {items : List Form} :
    (∀ item ∈ items, ItemForm heads (namesIn items) (numbers (nodesIn items)) item) →
      (namesIn items).Nodup → nodesIn items ≠ [] → (numbers (nodesIn items)).Nodup →
      ProcedureForm heads (.list (.symbol "procedure" :: .symbol name :: items))

/-- The heads of the lists that the assignments of a procedure have for their targets. -/
def targetHeads : Form → List Form
  | .list (_ :: _ :: items) => (nodesIn items).filterMap fun n => targetHead? n.code
  | _ => []

/-- The node has a number, a statement of the grammar, and successors among the given numbers. -/
structure NodeForm (heads : Form → Prop) (names : List String) (ids : List Int) (n : NodeItem) :
    Prop where
  number : ∃ id, n.id = .integer id
  code : StmtForm heads names n.code
  succs : ∀ s ∈ n.succs, ∃ m ∈ ids, s = .integer m

theorem itemForm_iff {heads : Form → Prop} {names : List String} {ids : List Int} {item : Form} :
    ItemForm heads names ids item ↔
      ItemShape item ∧ ∀ n ∈ nodeItem? item, NodeForm heads names ids n := by
  constructor
  · intro h
    cases h with
    | params hdecls => exact ⟨.params hdecls, nofun⟩
    | vars hdecls => exact ⟨.vars hdecls, nofun⟩
    | node id hcode hsuccs =>
      refine ⟨.node _ _ _, ?_⟩
      intro n hn
      cases hn
      exact ⟨⟨id, rfl⟩, hcode, hsuccs⟩
  · rintro ⟨hshape, hnode⟩
    cases hshape with
    | params hdecls => exact .params hdecls
    | vars hdecls => exact .vars hdecls
    | node id code succs =>
      obtain ⟨⟨n, rfl⟩, hcode, hsuccs⟩ := hnode _ rfl
      exact .node n hcode hsuccs

/-- Items follow the grammar if all have the shape of one and the nodes among them are in order. -/
theorem forall_itemForm_iff {heads : Form → Prop} {names : List String} {ids : List Int}
    {items : List Form} :
    (∀ item ∈ items, ItemForm heads names ids item) ↔
      (∀ item ∈ items, ItemShape item) ∧ ∀ n ∈ nodesIn items, NodeForm heads names ids n := by
  simp only [itemForm_iff, nodesIn, List.mem_filterMap]
  constructor
  · intro h
    refine ⟨fun item hitem => (h item hitem).1, ?_⟩
    rintro n ⟨item, hitem, hn⟩
    exact (h item hitem).2 n hn
  · rintro ⟨hshape, hnode⟩ item hitem
    exact ⟨hshape item hitem, fun n hn => hnode n ⟨item, hitem, hn⟩⟩

/-- Only lists headed by the symbol `procedure` and a name are loaded. -/
theorem procedure_eq_list_of_succeeds {form : Form} (h : Succeeds (procedure form)) :
    ∃ name items, form = .list (.symbol "procedure" :: .symbol name :: items) := by
  obtain ⟨items, hitems, h⟩ := succeeds_bind_iff.mp h
  obtain rfl := listItems_eq_ok_iff.mp hitems
  split at h
  next =>
    obtain ⟨tag, htag, h⟩ := succeeds_bind_iff.mp h
    obtain rfl := symbolName_eq_ok_iff.mp htag
    split at h
    · exact absurd h (not_succeeds_error _)
    case isFalse hprocedure =>
      obtain ⟨name, hname, _⟩ := succeeds_bind_iff.mp h
      obtain rfl := symbolName_eq_ok_iff.mp hname
      exact ⟨name, _, by rw [not_not.mp hprocedure]⟩
  next => exact absurd h (not_succeeds_error _)

/-- A procedure is loaded exactly if its items can be gathered, a node is among them, and what is
gathered can be assembled. -/
theorem procedure_eq_ok_iff {name : String} {items : List Form} {g : FlowGraph} :
    procedure (.list (.symbol "procedure" :: .symbol name :: items)) = .ok g ↔
      (∀ item ∈ items, ItemShape item) ∧ (namesIn items).Nodup ∧ nodesIn items ≠ [] ∧
        assemble name
          { scope := items.flatMap declaredIn, params := items.flatMap paramsIn
            nodes := nodesIn items } = .ok g := by
  change (items.foldlM Draft.add ⟨[], [], []⟩ >>= fun d =>
    if d.nodes.isEmpty = true then .error _ else assemble name d) = .ok g ↔ _
  rw [bind_eq_ok_iff]
  constructor
  · rintro ⟨d, hd, h⟩
    obtain ⟨hshape, hfresh, rfl⟩ := foldlM_add_eq_ok_iff.mp hd
    split at h
    · cases h
    case isFalse hnodes => exact ⟨hshape, hfresh.1, mt List.isEmpty_iff.mpr hnodes, h⟩
  · rintro ⟨hshape, hnames, hnodes, h⟩
    refine ⟨_, foldlM_add_eq_ok_iff.mpr ⟨hshape, ⟨hnames, List.disjoint_nil_left _⟩, rfl⟩, ?_⟩
    have hsome : ¬ (Draft.gather ⟨[], [], []⟩ items).nodes.isEmpty = true :=
      mt List.isEmpty_iff.mp hnodes
    rw [if_neg hsome]
    exact h

theorem succeeds_procedure_list_iff {name : String} {items : List Form} :
    Succeeds (procedure (.list (.symbol "procedure" :: .symbol name :: items))) ↔
      (∀ item ∈ items, ItemShape item) ∧ (namesIn items).Nodup ∧ nodesIn items ≠ [] ∧
        (numbers (nodesIn items)).Nodup ∧
        ∀ n ∈ nodesIn items,
          NodeForm (fun _ => True) (namesIn items) (numbers (nodesIn items)) n := by
  constructor
  · rintro ⟨g, h⟩
    obtain ⟨hshape, hnames, hnodes, h⟩ := procedure_eq_ok_iff.mp h
    obtain ⟨hplace, hnodup, hsuccs⟩ := succeeds_assemble_iff.mp ⟨g, h⟩
    refine ⟨hshape, hnames, hnodes, hnodup, fun n hn => ?_⟩
    exact ⟨(hplace n hn).1, (hplace n hn).2, hsuccs n hn⟩
  · rintro ⟨hshape, hnames, hnodes, hnodup, hforms⟩
    let d : Draft :=
      { scope := items.flatMap declaredIn, params := items.flatMap paramsIn
        nodes := nodesIn items }
    have hplace : ∀ n ∈ d.nodes, Placeable d.scope n :=
      fun n hn => ⟨(hforms n hn).number, (hforms n hn).code⟩
    have hassembles : Succeeds (assemble name d) :=
      succeeds_assemble_iff.mpr ⟨hplace, hnodup, fun n hn => (hforms n hn).succs⟩
    obtain ⟨g, h⟩ := hassembles
    exact ⟨g, procedure_eq_ok_iff.mpr ⟨hshape, hnames, hnodes, h⟩⟩

/-- Exactly the procedures of the grammar are loaded, if a field may be named by a list with any
head. -/
theorem succeeds_procedure_iff {form : Form} :
    Succeeds (procedure form) ↔ ProcedureForm (fun _ => True) form := by
  constructor
  · intro h
    obtain ⟨name, items, rfl⟩ := procedure_eq_list_of_succeeds h
    obtain ⟨hshape, hnames, hnodes, hnodup, hforms⟩ := succeeds_procedure_list_iff.mp h
    exact .mk name (forall_itemForm_iff.mpr ⟨hshape, hforms⟩) hnames hnodes hnodup
  · intro h
    cases h with
    | mk name hitems hnames hnodes hnodup =>
      obtain ⟨hshape, hforms⟩ := forall_itemForm_iff.mp hitems
      exact succeeds_procedure_list_iff.mpr ⟨hshape, hnames, hnodes, hnodup, hforms⟩

/-- With fewer heads to choose from, a procedure has one of them wherever a target is a list. -/
theorem procedureForm_iff {heads : Form → Prop} {form : Form} :
    ProcedureForm heads form ↔
      ProcedureForm (fun _ => True) form ∧ ∀ head ∈ targetHeads form, heads head := by
  constructor
  · intro h
    cases h with
    | mk name hitems hnames hnodes hnodup =>
      obtain ⟨hshape, hforms⟩ := forall_itemForm_iff.mp hitems
      constructor
      · refine .mk name (forall_itemForm_iff.mpr ⟨hshape, ?_⟩) hnames hnodes hnodup
        exact fun n hn => { hforms n hn with code := (stmtForm_iff.mp (hforms n hn).code).1 }
      · intro head hhead
        obtain ⟨n, hn, htarget⟩ := List.mem_filterMap.mp hhead
        exact (stmtForm_iff.mp (hforms n hn).code).2 head htarget
  · rintro ⟨h, hheads⟩
    cases h with
    | mk name hitems hnames hnodes hnodup =>
      obtain ⟨hshape, hforms⟩ := forall_itemForm_iff.mp hitems
      refine .mk name (forall_itemForm_iff.mpr ⟨hshape, ?_⟩) hnames hnodes hnodup
      intro n hn
      have hcode : ∀ head ∈ targetHead? n.code, heads head := by
        intro head hhead
        exact hheads head (List.mem_filterMap.mpr ⟨n, hn, hhead⟩)
      exact { hforms n hn with code := stmtForm_iff.mpr ⟨(hforms n hn).code, hcode⟩ }

end ConstantFlow.Loading

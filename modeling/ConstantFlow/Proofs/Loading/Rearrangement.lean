import ConstantFlow.Proofs.Loading.Wiring
import ConstantFlow.Proofs.Loading.Writing

/-!
# Texts of the same graph

The numbers of nodes only tell nodes apart, and the declarations of variables only say what is in
scope everywhere. So other numbers give the same graph as long as different nodes have different
ones, and the declarations may stand anywhere, in any order and in any number of items.

Main results:

* `drawing_renumber`: other numbers give the same graph
* `SameContents.drawing_eq`: so do declarations elsewhere
* `numbers_and_places_carry_no_meaning`: both, for every procedure that is loaded
-/

namespace ConstantFlow.Loading

/-! ## Other numbers -/

/-- The form with another number, if it is a number. -/
def renumberId (φ : Int → Int) : Form → Form
  | .integer n => .integer (φ n)
  | form => form

/-- The item with other numbers of nodes. -/
def renumberItem (φ : Int → Int) : Form → Form
  | .list (.symbol "node" :: id :: code :: succs) =>
    .list (.symbol "node" :: renumberId φ id :: code :: succs.map (renumberId φ))
  | item => item

/-- The procedure with other numbers of nodes, where nodes are written and where they are named. -/
def renumber (φ : Int → Int) : Form → Form
  | .list (head :: name :: items) => .list (head :: name :: items.map (renumberItem φ))
  | form => form

def NodeItem.renumber (φ : Int → Int) (n : NodeItem) : NodeItem where
  form := renumberItem φ n.form
  id := renumberId φ n.id
  code := n.code
  succs := n.succs.map (renumberId φ)

theorem renumberId_injective {φ : Int → Int} (hφ : Function.Injective φ) :
    Function.Injective (renumberId φ) := by
  intro f f' h
  cases f <;> cases f' <;> simp_all [renumberId, hφ.eq_iff]

theorem lookup_map_key {r : Form → Form} (hr : Function.Injective r) (table : List (Form × Node))
    (s : Form) : (table.map (Prod.map r id)).lookup (r s) = table.lookup s := by
  induction table with
  | nil => rfl
  | cons e table ih =>
    rw [List.map_cons, Entries.lookup_entry, Entries.lookup_entry, ih]
    simp only [Prod.map_fst, Prod.map_snd, hr.eq_iff, id_eq]

section Items

variable (φ : Int → Int) {items : List Form} (hshapes : ∀ item ∈ items, ItemShape item)

include hshapes

theorem itemShape_renumberItem : ∀ item ∈ items.map (renumberItem φ), ItemShape item := by
  rw [List.forall_mem_map]
  intro item hitem
  cases hshapes item hitem with
  | params hdecls => exact .params hdecls
  | vars hdecls => exact .vars hdecls
  | node id code succs => exact .node _ _ _

/-- What is read off the declarations alone is the same. -/
theorem flatMap_renumberItem {f : Form → List Var}
    (hf : ∀ id code succs, f (.list (.symbol "node" :: id :: code :: succs)) = []) :
    (items.map (renumberItem φ)).flatMap f = items.flatMap f := by
  rw [List.flatMap_map]
  refine List.flatMap_congr fun item hitem => ?_
  cases hshapes item hitem with
  | params => rfl
  | vars => rfl
  | node id code succs => exact (hf _ _ _).trans (hf _ _ _).symm

theorem nodesIn_renumberItem :
    nodesIn (items.map (renumberItem φ)) = (nodesIn items).map (NodeItem.renumber φ) := by
  rw [nodesIn, nodesIn, List.filterMap_map, List.map_filterMap]
  refine List.filterMap_congr fun item hitem => ?_
  cases hshapes item hitem <;> rfl

end Items

section Numbering

variable {φ : Int → Int} (hφ : Function.Injective φ)

include hφ

theorem lookup_numbering_renumber (nodes : List NodeItem) (codes : List Stmt) (s : Form) :
    (numbering (nodes.map (NodeItem.renumber φ)) codes).lookup (renumberId φ s) =
      (numbering nodes codes).lookup s := by
  have htable : numbering (nodes.map (NodeItem.renumber φ)) codes =
      (numbering nodes codes).map (Prod.map (renumberId φ) id) := by
    rw [numbering, numbering, ← List.zip_map_left, List.map_map, List.map_map]
    rfl
  rw [htable, lookup_map_key (renumberId_injective hφ)]

theorem endsOf_renumber (nodes : List NodeItem) (codes : List Stmt) (succs : List Form) :
    endsOf (numbering (nodes.map (NodeItem.renumber φ)) codes) (succs.map (renumberId φ)) =
      endsOf (numbering nodes codes) succs := by
  simp only [endsOf, List.map_eq_nil_iff, List.filterMap_map, Function.comp_def,
    lookup_numbering_renumber hφ]

/-- Edges do not depend on the numbers. -/
theorem sourcesOf_renumber (nodes : List NodeItem) (codes : List Stmt) :
    sourcesOf (nodes.map (NodeItem.renumber φ)) codes = sourcesOf nodes codes := by
  unfold sourcesOf
  rw [List.zip_map_left, List.map_map]
  refine congrArg (List.cons _) (List.map_congr_left fun p _ => ?_)
  exact congrArg (Prod.mk p.2) (endsOf_renumber hφ nodes codes p.1.succs)

end Numbering

theorem numbers_renumber (φ : Int → Int) (nodes : List NodeItem) :
    numbers (nodes.map (NodeItem.renumber φ)) = (numbers nodes).map φ := by
  rw [numbers, numbers, List.filterMap_map, List.map_filterMap]
  refine List.filterMap_congr fun n _ => ?_
  rcases n with ⟨_, id, _, _⟩
  cases id <;> rfl

theorem Drawable.renumber {φ : Int → Int} (hφ : Function.Injective φ) {items : List Form}
    {codes : List Stmt} (h : Drawable items codes) :
    Drawable (items.map (renumberItem φ)) codes := by
  have hnodes := nodesIn_renumberItem φ h.shapes
  have hscope := flatMap_renumberItem φ h.shapes (f := declaredIn) fun _ _ _ => rfl
  constructor
  case shapes => exact itemShape_renumberItem φ h.shapes
  case nodup_names =>
    rw [namesIn, hscope]
    exact h.nodup_names
  case nodes_ne_nil =>
    rw [hnodes, ne_eq, List.map_eq_nil_iff]
    exact h.nodes_ne_nil
  case number =>
    rw [hnodes, List.forall_mem_map]
    intro n hn
    obtain ⟨id, hid⟩ := h.number n hn
    exact ⟨φ id, congrArg (renumberId φ) hid⟩
  case nodup_numbers =>
    rw [hnodes, numbers_renumber]
    exact h.nodup_numbers.map hφ
  case codes_eq =>
    rw [hnodes, hscope, List.map_map]
    exact h.codes_eq
  case resolved =>
    rw [hnodes, List.forall_mem_map]
    intro n hn
    refine List.forall_mem_map.mpr fun s hs => ?_
    rw [lookup_numbering_renumber hφ]
    exact h.resolved n hn s hs

theorem drawing_renumber {φ : Int → Int} (hφ : Function.Injective φ) (name : String)
    {items : List Form} {codes : List Stmt} (h : Drawable items codes) :
    drawing name (items.map (renumberItem φ)) codes = drawing name items codes := by
  have hparams := flatMap_renumberItem φ h.shapes (f := paramsIn) fun _ _ _ => rfl
  rw [drawing, drawing, hparams, nodesIn_renumberItem φ h.shapes, sourcesOf_renumber hφ]

/-! ## Declarations in other places -/

/-- The item that declares variables. -/
def varsItem (decls : List Form) : Form :=
  .list (.symbol "vars" :: decls)

/-- The items of a procedure may be arranged in the one way or in the other: the variables are
declared in other places, in another order, or in more or fewer items. -/
inductive Rearranged : List Form → List Form → Prop where
  | move (before : List Form) (decls : List Form) (passed behind : List Form) :
    Rearranged (before ++ varsItem decls :: (passed ++ behind))
      (before ++ passed ++ varsItem decls :: behind)
  | reorder (before : List Form) {decls decls' : List Form} (behind : List Form) :
    decls.Perm decls' →
      Rearranged (before ++ varsItem decls :: behind) (before ++ varsItem decls' :: behind)
  | split (before decls decls' behind : List Form) :
    Rearranged (before ++ varsItem (decls ++ decls') :: behind)
      (before ++ varsItem decls :: varsItem decls' :: behind)
  | symm {items items' : List Form} : Rearranged items items' → Rearranged items' items
  | trans {items₁ items₂ items₃ : List Form} :
    Rearranged items₁ items₂ → Rearranged items₂ items₃ → Rearranged items₁ items₃

/-- The items say the same, up to the order of the declarations. -/
structure SameContents (items items' : List Form) : Prop where
  shapes : (∀ item ∈ items, ItemShape item) ↔ ∀ item ∈ items', ItemShape item
  declared : (items.flatMap declaredIn).Perm (items'.flatMap declaredIn)
  params : items.flatMap paramsIn = items'.flatMap paramsIn
  nodes : nodesIn items = nodesIn items'

theorem SameContents.symm {items items' : List Form} (h : SameContents items items') :
    SameContents items' items :=
  ⟨h.shapes.symm, h.declared.symm, h.params.symm, h.nodes.symm⟩

theorem SameContents.trans {items₁ items₂ items₃ : List Form} (h : SameContents items₁ items₂)
    (h' : SameContents items₂ items₃) : SameContents items₁ items₃ :=
  ⟨h.shapes.trans h'.shapes, h.declared.trans h'.declared, h.params.trans h'.params,
    h.nodes.trans h'.nodes⟩

@[simp] theorem nodesIn_append (items items' : List Form) :
    nodesIn (items ++ items') = nodesIn items ++ nodesIn items' :=
  List.filterMap_append

section VarsItem

variable (decls : List Form)

theorem itemShape_varsItem_iff : ItemShape (varsItem decls) ↔ ∀ d ∈ decls, DeclForm d := by
  constructor
  · intro h
    generalize hitem : varsItem decls = item at h
    cases h with
    | params => simp [varsItem] at hitem
    | vars hdecls =>
      cases hitem
      exact hdecls
    | node => simp [varsItem] at hitem
  · exact .vars

@[simp] theorem declaredIn_varsItem : declaredIn (varsItem decls) = decls.filterMap declared? :=
  rfl

@[simp] theorem paramsIn_varsItem : paramsIn (varsItem decls) = [] :=
  rfl

@[simp] theorem nodesIn_varsItem_cons (items : List Form) :
    nodesIn (varsItem decls :: items) = nodesIn items :=
  List.filterMap_cons_none rfl

end VarsItem

theorem Rearranged.sameContents {items items' : List Form} (h : Rearranged items items') :
    SameContents items items' := by
  induction h with
  | move before decls passed behind =>
    constructor
    case shapes =>
      simp only [List.forall_mem_append, List.forall_mem_cons]
      tauto
    case declared =>
      simp only [List.flatMap_append, List.flatMap_cons, List.append_assoc]
      exact (List.perm_append_comm_assoc _ _ _).append_left _
    case params => simp
    case nodes => simp
  | reorder before behind hperm =>
    constructor
    case shapes =>
      simp only [List.forall_mem_append, List.forall_mem_cons, itemShape_varsItem_iff,
        hperm.mem_iff]
    case declared =>
      simp only [List.flatMap_append, List.flatMap_cons, declaredIn_varsItem]
      exact ((hperm.filterMap _).append_right _).append_left _
    case params => simp
    case nodes => simp
  | split before decls decls' behind =>
    constructor
    case shapes =>
      simp only [List.forall_mem_append, List.forall_mem_cons, itemShape_varsItem_iff]
      tauto
    case declared => simp
    case params => simp
    case nodes => simp
  | symm _ ih => exact ih.symm
  | trans _ _ ih ih' => exact ih.trans ih'

/-- A statement is loaded in the same way whatever the order in which the variables come. -/
theorem statement_of_perm {scope scope' : Scope} (hscope : scope.names.Nodup)
    (hperm : scope.Perm scope') {f : Form} {s : Stmt} (h : statement scope f = .ok s) :
    statement scope' f = .ok s := by
  obtain ⟨hwritten, hvars⟩ := (statement_eq_ok_iff hscope).mp h
  have hscope' : scope'.names.Nodup := (hperm.map Var.name).nodup_iff.mp hscope
  rw [statement_eq_ok_iff hscope']
  exact ⟨hwritten, fun x hx => hperm.mem_iff.mp (hvars x hx)⟩

theorem Drawable.of_sameContents {items items' : List Form} {codes : List Stmt}
    (h : Drawable items codes) (hsame : SameContents items items') : Drawable items' codes := by
  constructor
  case shapes => exact hsame.shapes.mp h.shapes
  case nodup_names => exact (hsame.declared.map Var.name).nodup_iff.mp h.nodup_names
  case nodes_ne_nil => exact hsame.nodes ▸ h.nodes_ne_nil
  case number => exact hsame.nodes ▸ h.number
  case nodup_numbers => exact hsame.nodes ▸ h.nodup_numbers
  case codes_eq =>
    rw [← hsame.nodes, ← h.codes_eq]
    refine List.map_congr_left fun n hn => ?_
    obtain ⟨code, hcode⟩ := h.exists_code hn
    rw [hcode]
    exact statement_of_perm h.nodup_names hsame.declared hcode
  case resolved => exact hsame.nodes ▸ h.resolved

theorem SameContents.drawing_eq {items items' : List Form} (hsame : SameContents items items')
    (name : String) (codes : List Stmt) : drawing name items' codes = drawing name items codes := by
  rw [drawing, drawing, hsame.params, hsame.nodes]

/-! ## The same graph -/

/-- A text that is loaded is loaded as the same graph with other numbers for the nodes, as long as
different nodes have different ones, and with the variables declared in other places. -/
theorem numbers_and_places_carry_no_meaning {form : Form} {g : FlowGraph}
    (h : procedure form = .ok g) :
    (∀ φ : Int → Int, Function.Injective φ → procedure (renumber φ form) = .ok g) ∧
    ∀ head name items items', form = .list (head :: name :: items) → Rearranged items items' →
      procedure (.list (head :: name :: items')) = .ok g := by
  obtain ⟨name, items, rfl⟩ := procedure_eq_list_of_succeeds ⟨g, h⟩
  obtain ⟨codes, hdrawable, rfl⟩ := procedure_eq_ok_iff_drawable.mp h
  constructor
  · intro φ hφ
    exact procedure_eq_ok_iff_drawable.mpr
      ⟨codes, hdrawable.renumber hφ, (drawing_renumber hφ name hdrawable).symm⟩
  · intro head name' items₁ items' hform hrearranged
    cases hform
    have hsame := hrearranged.sameContents
    exact procedure_eq_ok_iff_drawable.mpr
      ⟨codes, hdrawable.of_sameContents hsame, (hsame.drawing_eq name codes).symm⟩

/-! A loop: with the numbers of its nodes swapped, and with the variables declared one by one behind
nodes that use them. -/

namespace Shuffled

def x : Var := { name := "x", type := .primitive .int }
def y : Var := { name := "y", type := .primitive .long }

def xDecl : Form := .list [.symbol "x", .symbol "int"]
def yDecl : Form := .list [.symbol "y", .symbol "long"]

def addItem (own next : Int) : Form :=
  .list [.symbol "node", .integer own,
    .list [.symbol "assign", .symbol "x", .list [.symbol "+", .symbol "x", .symbol "y"]],
    .integer next, .integer own]

def leaveItem (own : Int) : Form :=
  .list [.symbol "node", .integer own, .list [.symbol "return", .symbol "y"]]

def text (items : List Form) : Form :=
  .list (.symbol "procedure" :: .symbol "f" :: items)

def items : List Form := [varsItem [xDecl, yDecl], addItem 0 1, leaveItem 1]
def swapped : List Form := [varsItem [xDecl, yDecl], addItem 1 0, leaveItem 0]
def scattered : List Form := [addItem 0 1, varsItem [yDecl], leaveItem 1, varsItem [xDecl]]

def add : Node := .stmt 0 0 (.assign (.var x) (.binary .add (.var x) (.var y)))
def leave : Node := .stmt 1 1 (.ret (some (.var y)))

def graph : FlowGraph where
  name := "f"
  params := []
  nodes := [.entry, .exit, add, leave]
  edges := [(.entry, add), (add, leave), (add, add), (leave, .exit)]

theorem rearranged : Rearranged items scattered := by
  apply Rearranged.trans (.split [] [xDecl] [yDecl] [addItem 0 1, leaveItem 1])
  apply Rearranged.trans (.move [] [xDecl] [varsItem [yDecl], addItem 0 1, leaveItem 1] [])
  exact .move [] [yDecl] [addItem 0 1] [leaveItem 1, varsItem [xDecl]]

theorem swap_injective : Function.Injective fun n : Int => 1 - n := by
  intro m n h
  simpa using h

end Shuffled

open Shuffled in
theorem numbers_and_places_carry_no_meaning_shuffled :
    procedure (text items) = .ok graph ∧ renumber (fun n => 1 - n) (text items) = text swapped ∧
      procedure (text swapped) = .ok graph ∧ procedure (text scattered) = .ok graph := by
  have hloads : procedure (text items) = .ok graph := rfl
  have hswapped : renumber (fun n => 1 - n) (text items) = text swapped := rfl
  have hall := numbers_and_places_carry_no_meaning hloads
  refine ⟨hloads, hswapped, ?_, ?_⟩
  · rw [← hswapped]
    exact hall.1 _ swap_injective
  · exact hall.2 _ _ items scattered rfl rearranged

end ConstantFlow.Loading

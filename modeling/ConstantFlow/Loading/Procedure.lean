import ConstantFlow.FlowGraph.Basic
import ConstantFlow.Form.Reader
import ConstantFlow.Loading.Code
import ConstantFlow.Text.Newline
import ConstantFlow.Text.Utf8

/-!
# Loading procedures

A procedure is a list of declarations and nodes. Declarations count for the whole procedure,
wherever they stand. Nodes are numbered by integers of the writer's choice; control enters at
the first node and leaves at nodes that name no successor.
-/

namespace ConstantFlow.Loading

/-! ## Items -/

/-- A node as it is written: the whole item, its number, its statement and its successors. -/
structure NodeItem where
  form : Form
  id : Form
  code : Form
  succs : List Form
deriving DecidableEq, Repr

/-- What has been gathered from the items of a procedure, each part in the order of the text. -/
structure Draft where
  scope : Scope
  params : List Var
  nodes : List NodeItem
deriving DecidableEq, Repr

/-- The variable of a declaration, which must not be in scope. -/
def declaration (scope : Scope) (form : Form) : Except LoadError Var := do
  match ← listItems "NAME TYPE" form with
  | [nameForm, typeForm] =>
    let name ← symbolName nameForm
    if (scope.find? name).isSome then .error (.misfit (.declaredTwice name) form)
    let type ← symbolName typeForm
    return { name, type := .ofName type }
  | items => wrongLength "NAME TYPE" items

/-- The variables of several declarations. -/
def declarations (scope : Scope) : List Form → Except LoadError (List Var)
  | [] => .ok []
  | form :: forms => do
    let x ← declaration scope form
    let xs ← declarations (scope ++ [x]) forms
    return x :: xs

/-- Gathers one item. -/
def Draft.add (d : Draft) (item : Form) : Except LoadError Draft := do
  match ← listItems "procedure item" item with
  | [] => wrongLength "procedure item" []
  | head :: args =>
    let tag ← symbolName head
    if tag = "params" then
      let xs ← declarations d.scope args
      return { d with scope := d.scope ++ xs, params := d.params ++ xs }
    else if tag = "vars" then
      let xs ← declarations d.scope args
      return { d with scope := d.scope ++ xs }
    else if tag = "node" then
      match args with
      | id :: code :: succs =>
        return { d with nodes := d.nodes ++ [{ form := item, id, code, succs }] }
      | _ => wrongLength tag (head :: args)
    else .error (.misfit (.unknownItem tag) item)

/-! ## Nodes and edges -/

/-- A node of the graph with its number and its successors as they are written. -/
structure Placed where
  id : Int
  node : Node
  succs : List Form
deriving DecidableEq, Repr

/-- Places one more node behind those placed so far; its number must be a new one. -/
def place (scope : Scope) (placed : List Placed) (item : NodeItem) :
    Except LoadError (List Placed) := do
  let id ← integerValue item.id
  if placed.any (·.id == id) then .error (.misnumbered .duplicateId id item.form)
  let code ← statement scope item.code
  return placed ++ [{ id, node := .stmt placed.length placed.length code, succs := item.succs }]

/-- The node that a successor names. -/
def successor (placed : List Placed) (form : Form) : Except LoadError Node := do
  let id ← integerValue form
  match placed.find? (·.id == id) with
  | some p => .ok p.node
  | none => .error (.misnumbered .unknownSuccessor id form)

/-- Where control may go from a placed node. -/
def destinations (placed : List Placed) (p : Placed) : Except LoadError (List Node) :=
  if p.succs.isEmpty then .ok [.exit] else p.succs.mapM (successor placed)

/-- Adds the edges that leave a placed node. -/
def connect (placed : List Placed) (g : FlowGraph) (p : Placed) : Except LoadError FlowGraph := do
  let ends ← destinations placed p
  return ends.foldl (fun g v => g.addEdge p.node v) g

/-! ## Procedures -/

/-- The flow graph of a procedure, from its name and its gathered items. -/
def assemble (name : String) (d : Draft) : Except LoadError FlowGraph := do
  let placed ← d.nodes.foldlM (place d.scope) []
  let bare := placed.foldl (fun g p => g.addNode p.node) (FlowGraph.empty name d.params)
  let entered := (placed.take 1).foldl (fun g p => g.addEdge .entry p.node) bare
  placed.foldlM (connect placed) entered

/-- The flow graph of a form. -/
def procedure (form : Form) : Except LoadError FlowGraph := do
  match ← listItems "procedure" form with
  | head :: nameForm :: items =>
    if (← symbolName head) ≠ "procedure" then .error (.misfit .notProcedure head)
    let name ← symbolName nameForm
    let draft ← items.foldlM Draft.add { scope := [], params := [], nodes := [] }
    if draft.nodes.isEmpty then .error (.misfit (.noNodes name) form)
    assemble name draft
  | items => wrongLength "procedure" items

/-! ## Texts -/

/-- A way to read texts: the form of a text, or what is wrong with the text. -/
abbrev Reading := List Char → Except String Form

/-- The reading of symbolic expressions. -/
def symbolic : Reading := fun text =>
  (Form.read text).mapError ReadError.message

/-- The flow graph of a source text. -/
def source (reading : Reading) (text : List Char) : Except LoadError FlowGraph :=
  match reading text with
  | .ok form => procedure form
  | .error reason => .error (.unreadable reason)

/-! ## Files -/

/-- Why the contents of a file give no procedure. -/
inductive FileError where
  | undecodable (e : Text.Utf8Error)
  | unloadable (e : LoadError)
deriving DecidableEq, Repr

def FileError.message : FileError → String
  | .undecodable e => e.message
  | .unloadable e => e.message

/-- The flow graph of the contents of a file. -/
def file (reading : Reading) (bytes : List UInt8) : Except FileError FlowGraph :=
  match Text.Utf8.decode bytes with
  | .error e => .error (.undecodable e)
  | .ok chars =>
    match source reading (Text.unifyNewlines chars) with
    | .ok g => .ok g
    | .error e => .error (.unloadable e)

end ConstantFlow.Loading

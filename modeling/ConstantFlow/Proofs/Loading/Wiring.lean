import ConstantFlow.Proofs.Fact
import ConstantFlow.Proofs.FlowGraph.Edges
import ConstantFlow.Proofs.Loading.Shape

/-!
# How a loaded graph is wired

The edges of a loaded graph, read off the text. Control enters at the first node. A node leads to
the nodes that its successors number, a number that is repeated counting once, or to the exit if it
names none. Edges are added node by node, so the predecessors of a node come in the order of the
text, behind the entry.

Main results:

* `edges_of_connect`: the edges that one node adds
* `procedure_eq_ok_iff_drawable`: a procedure is loaded as the graph that is drawn from its text
* `graph_as_written`: what that graph looks like, node by node
-/

namespace ConstantFlow.Loading

/-! ## Numbers stand for nodes -/

/-- Which node is written down under which number, where `codes` are the statements of the nodes. -/
def numbering (nodes : List NodeItem) (codes : List Stmt) : List (Form × Node) :=
  (nodes.map NodeItem.id).zip (numbered codes)

/-- Where control goes from a node with the given successors. -/
def endsOf (table : List (Form × Node)) (succs : List Form) : List Node :=
  if succs = [] then [.exit] else succs.filterMap fun s => table.lookup s

/-- The number and the node of each placed node. -/
def placedTable (placed : List Placed) : List (Form × Node) :=
  placed.map fun p => (.integer p.id, p.node)

theorem placedTable_cons (p : Placed) (placed : List Placed) :
    placedTable (p :: placed) = (.integer p.id, p.node) :: placedTable placed :=
  rfl

theorem lookup_placedTable (placed : List Placed) (id : Int) :
    (placedTable placed).lookup (.integer id) =
      (placed.find? (·.id == id)).map Placed.node := by
  induction placed with
  | nil => rfl
  | cons p placed ih =>
    rw [placedTable_cons, Entries.lookup_entry, ih]
    simp only [Form.integer.injEq]
    by_cases hid : id = p.id
    · rw [if_pos hid, List.find?_cons_of_pos (by simp [hid])]
      rfl
    · rw [if_neg hid, List.find?_cons_of_neg (by simpa using Ne.symm hid)]

/-- A successor is looked up in the table. -/
theorem lookup_of_successor {placed : List Placed} {form : Form} {n : Node}
    (h : successor placed form = .ok n) : (placedTable placed).lookup form = some n := by
  obtain ⟨id, hid, h⟩ := bind_eq_ok_iff.mp h
  obtain rfl := integerValue_eq_ok_iff.mp hid
  rw [lookup_placedTable]
  split at h
  next p hfind =>
    cases h
    rw [hfind]
    rfl
  next => cases h

theorem map_of_mapM {α β ε : Type} {f : α → Except ε β} {r : α → Option β}
    (hf : ∀ x b, f x = .ok b → r x = some b) {xs : List α} {bs : List β}
    (h : xs.mapM f = .ok bs) : xs.map r = bs.map some := by
  induction xs generalizing bs with
  | nil =>
    cases h
    rfl
  | cons x xs ih =>
    rw [List.mapM_cons, bind_eq_ok_iff] at h
    obtain ⟨b, hb, h⟩ := h
    obtain ⟨cs, hcs, h⟩ := bind_eq_ok_iff.mp h
    cases h
    rw [List.map_cons, List.map_cons, hf x b hb, ih hcs]

/-- Every successor of a node that has somewhere to go stands for a node. -/
theorem endsOf_of_destinations {placed : List Placed} {p : Placed} {ends : List Node}
    (h : destinations placed p = .ok ends) :
    (∀ s ∈ p.succs, ((placedTable placed).lookup s).isSome = true) ∧
      ends = endsOf (placedTable placed) p.succs := by
  unfold destinations at h
  unfold endsOf
  split at h
  case isTrue hnone =>
    cases h
    rw [List.isEmpty_iff.mp hnone]
    exact ⟨by simp, rfl⟩
  case isFalse hsome =>
    have hmap := map_of_mapM (r := fun s => (placedTable placed).lookup s)
      (fun _ _ hs => lookup_of_successor hs) h
    rw [if_neg (mt List.isEmpty_iff.mpr hsome)]
    constructor
    · intro s hs
      have hmem : (placedTable placed).lookup s ∈ ends.map some := hmap ▸ List.mem_map_of_mem hs
      obtain ⟨v, _, hv⟩ := List.mem_map.mp hmem
      rw [← hv]
      rfl
    · have hfilter : (ends.map some).filterMap id = ends := by simp
      rw [← hmap, List.filterMap_map] at hfilter
      exact hfilter.symm

/-! ## Edges -/

/-- Connecting placed nodes adds the edges of one after the other. -/
theorem edges_of_connect {placed rest : List Placed} {g g' : FlowGraph}
    (hnodup : (rest.map Placed.node).Nodup) (hfree : ∀ p ∈ rest, ∀ v, (p.node, v) ∉ g.edges)
    (h : rest.foldlM (connect placed) g = .ok g') :
    (∀ p ∈ rest, ∀ s ∈ p.succs, ((placedTable placed).lookup s).isSome = true) ∧
      g'.edges = g.edges ++ FlowGraph.edgesOf
        (rest.map fun p => (p.node, endsOf (placedTable placed) p.succs)) := by
  induction rest generalizing g with
  | nil =>
    cases h
    exact ⟨by simp, by simp [FlowGraph.edgesOf]⟩
  | cons p rest ih =>
    rw [List.foldlM_cons, bind_eq_ok_iff] at h
    obtain ⟨g₁, hconnect, h⟩ := h
    obtain ⟨ends, hends, hconnect⟩ := bind_eq_ok_iff.mp hconnect
    cases hconnect
    obtain ⟨hresolved, rfl⟩ := endsOf_of_destinations hends
    rw [List.forall_mem_cons] at hfree
    rw [List.map_cons, List.nodup_cons] at hnodup
    have hedges := FlowGraph.edges_foldl_addEdge hfree.1 (endsOf (placedTable placed) p.succs)
    -- the new edges leave `p`, which is none of the nodes that are left
    have hfree' : ∀ q ∈ rest, ∀ v, (q.node, v) ∉
        ((endsOf (placedTable placed) p.succs).foldl (fun g v => g.addEdge p.node v) g).edges := by
      intro q hq v hv
      rw [hedges, List.mem_append] at hv
      rcases hv with hv | hv
      · exact hfree.2 q hq v hv
      · obtain ⟨w, _, hw⟩ := List.mem_map.mp hv
        have hsame : p.node = q.node := congrArg Prod.fst hw
        exact hnodup.1 (hsame ▸ List.mem_map_of_mem hq)
    obtain ⟨hrest, hg'⟩ := ih hnodup.2 hfree' h
    refine ⟨List.forall_mem_cons.mpr ⟨hresolved, hrest⟩, ?_⟩
    rw [hg', hedges, List.map_cons, FlowGraph.edgesOf_cons, List.append_assoc]

/-- Where control goes from the entry and from each of the nodes, where `codes` are their
statements. -/
def sourcesOf (nodes : List NodeItem) (codes : List Stmt) : List (Node × List Node) :=
  (.entry, (numbered codes).take 1) ::
    (nodes.zip (numbered codes)).map fun p => (p.2, endsOf (numbering nodes codes) p.1.succs)

/-- Placed nodes have the numbers that are written. -/
theorem ids_of_foldlM {scope : Scope} {nodes : List NodeItem} {placed next : List Placed}
    (h : nodes.foldlM (place scope) placed = .ok next) :
    next.map (fun p => Form.integer p.id) =
      placed.map (fun p => Form.integer p.id) ++ nodes.map NodeItem.id := by
  induction nodes generalizing placed with
  | nil =>
    cases h
    simp
  | cons item nodes ih =>
    rw [List.foldlM_cons, bind_eq_ok_iff] at h
    obtain ⟨more, hplace, h⟩ := h
    obtain ⟨id, code, hid, _, _, rfl⟩ := place_eq_ok_iff.mp hplace
    rw [ih h, List.map_cons, integerValue_eq_ok_iff.mp hid]
    simp

/-- Where the nodes have statements, there is one list of them. -/
theorem codes_unique {nodes : List NodeItem} {scope : Scope} {codes codes' : List Stmt}
    (h : nodes.map (fun n => statement scope n.code) = codes.map .ok)
    (h' : nodes.map (fun n => statement scope n.code) = codes'.map .ok) : codes = codes' :=
  List.map_injective_iff.mpr (fun _ _ => Except.ok.inj) (h.symm.trans h')

theorem edges_foldl_addNode (placed : List Placed) (g : FlowGraph) :
    (placed.foldl (fun g p => g.addNode p.node) g).edges = g.edges := by
  induction placed generalizing g with
  | nil => rfl
  | cons p placed ih => rw [List.foldl_cons, ih, FlowGraph.edges_addNode]

/-- Before the written edges there is the one from the entry to the first node. -/
theorem edges_entered (name : String) (params : List Var) (placed : List Placed) :
    ((placed.take 1).foldl (fun g p => g.addEdge .entry p.node)
      (placed.foldl (fun g p => g.addNode p.node) (FlowGraph.empty name params))).edges =
        ((placed.map Placed.node).take 1).eraseDups.map (.entry, ·) := by
  have hbare := edges_foldl_addNode placed (FlowGraph.empty name params)
  have hadd := FlowGraph.edges_foldl_addEdge (u := .entry) (fun v => by rw [hbare]; nofun)
    ((placed.take 1).map Placed.node)
  rw [List.foldl_map, hbare, List.map_take] at hadd
  exact hadd

/-- Sources that are gathered from the placed nodes are those of the text. -/
theorem map_endsOf_eq {placed : List Placed} {nodes : List NodeItem} {codes : List Stmt}
    (hsuccs : placed.map Placed.succs = nodes.map NodeItem.succs)
    (hnodes : placed.map Placed.node = numbered codes) (table : List (Form × Node)) :
    placed.map (fun p => (p.node, endsOf table p.succs)) =
      (nodes.zip (numbered codes)).map fun p => (p.2, endsOf table p.1.succs) := by
  have hpairs : ((nodes.map NodeItem.succs).zip (numbered codes)).map
      (fun p => (p.2, endsOf table p.1)) =
        (nodes.zip (numbered codes)).map fun p => (p.2, endsOf table p.1.succs) := by
    rw [List.zip_map_left, List.map_map]
    rfl
  rw [← hpairs, ← hsuccs, ← hnodes, List.zip_map', List.map_map]
  rfl

theorem edges_of_assemble {name : String} {d : Draft} {g : FlowGraph} {codes : List Stmt}
    (hcodes : d.nodes.map (fun item => statement d.scope item.code) = codes.map .ok)
    (h : assemble name d = .ok g) :
    (∀ n ∈ d.nodes, ∀ s ∈ n.succs, ((numbering d.nodes codes).lookup s).isSome = true) ∧
      g.edges = FlowGraph.edgesOf (sourcesOf d.nodes codes) := by
  obtain ⟨placed, hplaced, h⟩ := bind_eq_ok_iff.mp h
  obtain ⟨codes', hcodes', hnodes⟩ := numbered_of_foldlM [] rfl hplaced
  obtain rfl := codes_unique hcodes' hcodes
  rw [List.nil_append] at hnodes
  have hsuccs : placed.map Placed.succs = d.nodes.map NodeItem.succs := (placed_of_foldlM hplaced).2
  have htable : placedTable placed = numbering d.nodes codes' := by
    have hids : placed.map (fun p => Form.integer p.id) = d.nodes.map NodeItem.id :=
      ids_of_foldlM hplaced
    rw [numbering, ← hids, ← hnodes, List.zip_map']
    rfl
  have hentered := edges_entered name d.params placed
  have hnodup := nodup_entry_exit_numbered codes'
  rw [List.nodup_cons, List.nodup_cons, ← hnodes] at hnodup
  have hfree : ∀ p ∈ placed, ∀ v, (p.node, v) ∉ ((placed.take 1).foldl
      (fun g p => g.addEdge .entry p.node)
      (placed.foldl (fun g p => g.addNode p.node) (FlowGraph.empty name d.params))).edges := by
    intro p hp v hv
    rw [hentered] at hv
    obtain ⟨w, _, hw⟩ := List.mem_map.mp hv
    have hentry : Node.entry = p.node := congrArg Prod.fst hw
    exact hnodup.1 (List.mem_cons_of_mem _ (hentry ▸ List.mem_map_of_mem hp))
  obtain ⟨hresolved, hedges⟩ := edges_of_connect hnodup.2.2 hfree h
  rw [htable] at hresolved hedges
  constructor
  · intro n hn
    have hmem : n.succs ∈ placed.map Placed.succs := hsuccs ▸ List.mem_map_of_mem hn
    obtain ⟨p, hp, hsame⟩ := List.mem_map.mp hmem
    rw [← hsame]
    exact hresolved p hp
  · rw [hedges, hentered, hnodes, map_endsOf_eq hsuccs hnodes, sourcesOf, FlowGraph.edgesOf_cons]

/-! ## Sources -/

theorem exit_notMem_numbered (codes : List Stmt) : Node.exit ∉ numbered codes := by
  have hnodup := nodup_entry_exit_numbered codes
  rw [List.nodup_cons, List.nodup_cons] at hnodup
  exact hnodup.2.1

theorem take_one_numbered (first : Stmt) (rest : List Stmt) :
    (numbered (first :: rest)).take 1 = [.stmt 0 0 first] := by
  simp [numbered, List.mapIdx_cons]

theorem map_fst_sourcesOf {nodes : List NodeItem} {codes : List Stmt}
    (hlength : codes.length = nodes.length) :
    (sourcesOf nodes codes).map Prod.fst = .entry :: numbered codes := by
  have hsnd : (nodes.zip (numbered codes)).map Prod.snd = numbered codes :=
    List.map_snd_zip (by simp [numbered, hlength])
  rw [sourcesOf, List.map_cons, List.map_map]
  exact congrArg (List.cons Node.entry) hsnd

theorem nodup_sourcesOf {nodes : List NodeItem} {codes : List Stmt}
    (hlength : codes.length = nodes.length) : ((sourcesOf nodes codes).map Prod.fst).Nodup := by
  rw [map_fst_sourcesOf hlength]
  apply List.Nodup.sublist _ (nodup_entry_exit_numbered codes)
  exact List.cons_sublist_cons.mpr (List.sublist_cons_self _ _)

/-- A node leads to the exit exactly if it names no successor: no number stands for the exit. -/
theorem exit_mem_endsOf_iff {nodes : List NodeItem} {codes : List Stmt} {succs : List Form} :
    Node.exit ∈ endsOf (numbering nodes codes) succs ↔ succs = [] := by
  unfold endsOf
  split
  case isTrue hnone => exact iff_of_true (List.mem_singleton.mpr rfl) hnone
  case isFalse hsome =>
    refine iff_of_false ?_ hsome
    intro hmem
    obtain ⟨s, _, hs⟩ := List.mem_filterMap.mp hmem
    exact exit_notMem_numbered codes (List.of_mem_zip (Entries.mem_of_lookup hs)).2

/-! ## The whole graph -/

/-- The graph that the items of a procedure write down, where `codes` are the statements of the
nodes among them. -/
def drawing (name : String) (items : List Form) (codes : List Stmt) : FlowGraph where
  name := name
  params := items.flatMap paramsIn
  nodes := .entry :: .exit :: numbered codes
  edges := FlowGraph.edgesOf (sourcesOf (nodesIn items) codes)

/-- The items write down a graph, and `codes` are the statements of the nodes among them. -/
structure Drawable (items : List Form) (codes : List Stmt) : Prop where
  shapes : ∀ item ∈ items, ItemShape item
  nodup_names : (namesIn items).Nodup
  nodes_ne_nil : nodesIn items ≠ []
  number : ∀ n ∈ nodesIn items, ∃ id, n.id = .integer id
  nodup_numbers : (numbers (nodesIn items)).Nodup
  codes_eq : (nodesIn items).map (fun n => statement (items.flatMap declaredIn) n.code) =
    codes.map .ok
  /-- Every successor is the number of a node. -/
  resolved : ∀ n ∈ nodesIn items, ∀ s ∈ n.succs,
    ((numbering (nodesIn items) codes).lookup s).isSome = true

theorem Drawable.length_eq {items : List Form} {codes : List Stmt} (h : Drawable items codes) :
    codes.length = (nodesIn items).length := by
  simpa using (congrArg List.length h.codes_eq).symm

theorem Drawable.map_id_eq {items : List Form} {codes : List Stmt} (h : Drawable items codes) :
    (nodesIn items).map NodeItem.id = (numbers (nodesIn items)).map Form.integer := by
  have hnumber := h.number
  generalize nodesIn items = nodes at hnumber
  induction nodes with
  | nil => rfl
  | cons n nodes ih =>
    rw [List.forall_mem_cons] at hnumber
    obtain ⟨⟨id, hid⟩, hrest⟩ := hnumber
    rw [numbers_cons hid, List.map_cons, List.map_cons, ih hrest, hid]

theorem Drawable.exists_code {items : List Form} {codes : List Stmt} (h : Drawable items codes)
    {n : NodeItem} (hn : n ∈ nodesIn items) :
    ∃ code, statement (items.flatMap declaredIn) n.code = .ok code := by
  have hmem : statement (items.flatMap declaredIn) n.code ∈ codes.map .ok := by
    rw [← h.codes_eq]
    exact List.mem_map_of_mem hn
  obtain ⟨code, _, hcode⟩ := List.mem_map.mp hmem
  exact ⟨code, hcode.symm⟩

theorem drawable_of_procedure {name : String} {items : List Form} {g : FlowGraph}
    (h : procedure (.list (.symbol "procedure" :: .symbol name :: items)) = .ok g) :
    ∃ codes, Drawable items codes ∧ g = drawing name items codes := by
  obtain ⟨_, _, _, hnumbers, hforms⟩ := succeeds_procedure_list_iff.mp ⟨g, h⟩
  obtain ⟨hshapes, hnames, hnodes, h⟩ := procedure_eq_ok_iff.mp h
  obtain ⟨codes, hcodes, hname, hparams, hgraph⟩ := shape_of_assemble h
  obtain ⟨hresolved, hedges⟩ := edges_of_assemble hcodes h
  refine ⟨codes, ?_, ?_⟩
  · exact ⟨hshapes, hnames, hnodes, fun n hn => (hforms n hn).number, hnumbers, hcodes, hresolved⟩
  · cases g
    cases hname
    cases hparams
    cases hgraph
    cases hedges
    rfl

/-- A procedure is loaded exactly if its items write down a graph, and then as that graph. -/
theorem procedure_eq_ok_iff_drawable {name : String} {items : List Form} {g : FlowGraph} :
    procedure (.list (.symbol "procedure" :: .symbol name :: items)) = .ok g ↔
      ∃ codes, Drawable items codes ∧ g = drawing name items codes := by
  constructor
  · exact drawable_of_procedure
  · rintro ⟨codes, hdrawable, rfl⟩
    have hforms : ∀ n ∈ nodesIn items,
        NodeForm (fun _ => True) (namesIn items) (numbers (nodesIn items)) n := by
      intro n hn
      constructor
      case number => exact hdrawable.number n hn
      case code => exact stmtForm_of_succeeds (hdrawable.exists_code hn)
      case succs =>
        intro s hs
        obtain ⟨v, hv⟩ := Option.isSome_iff_exists.mp (hdrawable.resolved n hn s hs)
        have hid := (List.of_mem_zip (Entries.mem_of_lookup hv)).1
        rw [hdrawable.map_id_eq] at hid
        obtain ⟨m, hm, hs⟩ := List.mem_map.mp hid
        exact ⟨m, hm, hs.symm⟩
    obtain ⟨g, hg⟩ := succeeds_procedure_list_iff.mpr
      ⟨hdrawable.shapes, hdrawable.nodup_names, hdrawable.nodes_ne_nil, hdrawable.nodup_numbers,
        hforms⟩
    obtain ⟨codes', hdrawable', rfl⟩ := drawable_of_procedure hg
    rw [codes_unique hdrawable.codes_eq hdrawable'.codes_eq]
    exact hg

/-- The graph is the one that a text writes down, where `items` are the items of the procedure and
`codes` are the statements of its nodes. -/
structure AsWritten (name : String) (items : List Form) (codes : List Stmt) (g : FlowGraph) :
    Prop where
  /-- Every item declares variables or is a node. -/
  shapes : ∀ item ∈ items, ItemShape item
  nodup_ids : ((nodesIn items).map NodeItem.id).Nodup
  codes_eq : (nodesIn items).map (fun n => statement (items.flatMap declaredIn) n.code) =
    codes.map .ok
  name_eq : g.name = name
  params_eq : g.params = items.flatMap paramsIn
  nodes_eq : g.nodes = .entry :: .exit :: numbered codes
  /-- Control enters at the first node. -/
  succs_entry : ∃ first rest, codes = first :: rest ∧ g.succs .entry = [.stmt 0 0 first]
  preds_entry : g.preds .entry = []
  succs_exit : g.succs .exit = []
  /-- Control leaves at the nodes that name no successor. -/
  preds_exit : g.preds .exit =
    (((nodesIn items).zip (numbered codes)).filter fun p => p.1.succs = []).map Prod.snd
  succs_leaving : ∀ p ∈ (nodesIn items).zip (numbered codes), p.1.succs = [] →
    g.succs p.2 = [.exit]
  /-- The other nodes lead to those that they number, in this order, and every number that they
  name is that of a node. -/
  succs_eq : ∀ p ∈ (nodesIn items).zip (numbered codes), p.1.succs ≠ [] →
    ∃ ends : List Node,
      p.1.succs.map (fun s => (numbering (nodesIn items) codes).lookup s) = ends.map some ∧
        g.succs p.2 = ends.eraseDups
  preds_eq : ∀ v, g.preds v = (.entry :: numbered codes).filter fun u => v ∈ g.succs u

section Drawing

variable {name : String} {items : List Form} {codes : List Stmt}

theorem preds_exit_drawing :
    (drawing name items codes).preds .exit =
      (((nodesIn items).zip (numbered codes)).filter fun p => p.1.succs = []).map Prod.snd := by
  have hfirst : Node.exit ∉ (numbered codes).take 1 :=
    mt List.mem_of_mem_take (exit_notMem_numbered codes)
  rw [FlowGraph.preds_eq_map rfl, sourcesOf, List.filter_cons_of_neg (by simpa using hfirst),
    List.filter_map, List.map_map]
  refine congrArg (List.map Prod.snd) (List.filter_congr fun p _ => ?_)
  exact decide_eq_decide.mpr exit_mem_endsOf_iff

variable (hlength : codes.length = (nodesIn items).length)

include hlength

theorem succs_drawing {p : NodeItem × Node} (hp : p ∈ (nodesIn items).zip (numbered codes)) :
    (drawing name items codes).succs p.2 =
      (endsOf (numbering (nodesIn items) codes) p.1.succs).eraseDups := by
  apply FlowGraph.succs_eq_eraseDups rfl (nodup_sourcesOf hlength)
  exact List.mem_cons_of_mem _ (List.mem_map_of_mem hp)

theorem succs_entry_drawing :
    (drawing name items codes).succs .entry = ((numbered codes).take 1).eraseDups :=
  FlowGraph.succs_eq_eraseDups rfl (nodup_sourcesOf hlength) List.mem_cons_self

theorem succs_exit_drawing : (drawing name items codes).succs .exit = [] := by
  apply FlowGraph.succs_eq_nil rfl
  rw [map_fst_sourcesOf hlength, List.mem_cons, not_or]
  exact ⟨nofun, exit_notMem_numbered codes⟩

theorem preds_drawing (v : Node) :
    (drawing name items codes).preds v =
      (.entry :: numbered codes).filter fun u => v ∈ (drawing name items codes).succs u := by
  rw [FlowGraph.preds_eq_filter rfl (nodup_sourcesOf hlength), map_fst_sourcesOf hlength]

end Drawing

/-- A loaded graph is the one that its text writes down: nodes in the order of the text, edges from
each node to those that it numbers or to the exit, and all of them seen from their ends as well. -/
theorem graph_as_written {form : Form} {g : FlowGraph} (h : procedure form = .ok g) :
    ∃ name items codes, form = .list (.symbol "procedure" :: .symbol name :: items) ∧
      AsWritten name items codes g := by
  obtain ⟨name, items, rfl⟩ := procedure_eq_list_of_succeeds ⟨g, h⟩
  have hentered := (enteredOnce_of_procedure h).2
  obtain ⟨codes, hdrawable, rfl⟩ := procedure_eq_ok_iff_drawable.mp h
  have hlength := hdrawable.length_eq
  refine ⟨name, items, codes, rfl, ?_⟩
  constructor
  case shapes => exact hdrawable.shapes
  case nodup_ids =>
    rw [hdrawable.map_id_eq]
    exact hdrawable.nodup_numbers.map fun _ _ => Form.integer.inj
  case codes_eq => exact hdrawable.codes_eq
  case name_eq => rfl
  case params_eq => rfl
  case nodes_eq => rfl
  case succs_entry =>
    cases codes with
    | nil => exact absurd (List.length_eq_zero_iff.mp hlength.symm) hdrawable.nodes_ne_nil
    | cons first rest =>
      refine ⟨first, rest, rfl, ?_⟩
      rw [succs_entry_drawing hlength, take_one_numbered]
      rfl
  case preds_entry =>
    rw [List.eq_nil_iff_forall_not_mem]
    intro u hu
    exact hentered u (FlowGraph.mem_preds_iff.mp hu)
  case succs_exit => exact succs_exit_drawing hlength
  case preds_exit => exact preds_exit_drawing
  case succs_leaving =>
    intro p hp hnone
    rw [succs_drawing hlength hp, endsOf, if_pos hnone]
    rfl
  case succs_eq =>
    intro p hp hsuccs
    refine ⟨p.1.succs.filterMap fun s => (numbering (nodesIn items) codes).lookup s, ?_, ?_⟩
    · rw [List.map_filterMap_some_eq_filter_map_isSome, eq_comm, List.filter_eq_self,
        List.forall_mem_map]
      exact hdrawable.resolved p.1 (List.of_mem_zip hp).1
    · rw [succs_drawing hlength hp, endsOf, if_neg hsuccs]
  case preds_eq => exact preds_drawing hlength

/-! A procedure whose numbers are in no order, with a node that names itself, one that is named
twice and before it is written, and parameters in two places. -/

namespace Twisted

def form : Form :=
  .list [.symbol "procedure", .symbol "f",
    .list [.symbol "params", .list [.symbol "p", .symbol "int"]],
    .list [.symbol "node", .integer 7, .list [.symbol "if", .symbol "p"],
      .integer (-1), .integer 7, .integer (-1), .integer 3],
    .list [.symbol "params", .list [.symbol "q", .symbol "long"]],
    .list [.symbol "node", .integer 3, .list [.symbol "nop"]],
    .list [.symbol "node", .integer (-1), .list [.symbol "return", .symbol "q"]]]

def p : Var := { name := "p", type := .primitive .int }
def q : Var := { name := "q", type := .primitive .long }

def test : Node := .stmt 0 0 (.branch (.var p))
def pass : Node := .stmt 1 1 .nop
def leave : Node := .stmt 2 2 (.ret (some (.var q)))

def graph : FlowGraph where
  name := "f"
  params := [p, q]
  nodes := [.entry, .exit, test, pass, leave]
  edges := [(.entry, test), (test, leave), (test, test), (test, pass), (pass, .exit),
    (leave, .exit)]

end Twisted

open Twisted in
theorem graph_as_written_twisted :
    procedure form = .ok graph ∧
      (∃ name items codes, form = .list (.symbol "procedure" :: .symbol name :: items) ∧
        AsWritten name items codes graph) ∧
      graph.succs test = [leave, test, pass] ∧ graph.preds test = [.entry, test] ∧
      graph.preds .exit = [pass, leave] :=
  ⟨rfl, graph_as_written rfl, by decide, by decide, by decide⟩

end ConstantFlow.Loading

import ConstantFlow.Proofs.Loading.Acceptance

/-!
# What a loaded graph looks like

The graph of a loaded procedure has the name and the parameters that are written. Its nodes are the
entry, the exit and the statements in the order in which they are written, numbered from zero; the
edges come between nodes that are there already. Whatever a statement assigns is declared.

Main results:

* `shape_of_procedure`: name, parameters and nodes of a loaded graph
* `assigned_mem_declaredVars`: what a statement assigns is declared
-/

namespace ConstantFlow

namespace FlowGraph

/-! ## Adding nodes and edges -/

theorem addNode_of_mem {g : FlowGraph} {n : Node} (h : n ∈ g.nodes) : g.addNode n = g :=
  if_pos h

/-- New nodes come behind those that are there. -/
theorem foldl_addNode {g : FlowGraph} {ns : List Node} (h : (g.nodes ++ ns).Nodup) :
    ns.foldl addNode g = { g with nodes := g.nodes ++ ns } := by
  induction ns generalizing g with
  | nil => simp
  | cons n ns ih =>
    rw [← List.singleton_append, ← List.append_assoc] at h
    have hnew : n ∉ g.nodes := by
      have hdisjoint := (List.nodup_append'.mp h.of_append_left).2.2
      simpa using hdisjoint
    have hadd : g.addNode n = { g with nodes := g.nodes ++ [n] } := if_neg hnew
    rw [List.foldl_cons, hadd, ih h, List.append_assoc, List.singleton_append]

/-- The graphs differ in their edges at most. -/
structure SameNodes (g g' : FlowGraph) : Prop where
  name_eq : g'.name = g.name
  params_eq : g'.params = g.params
  nodes_eq : g'.nodes = g.nodes

theorem SameNodes.refl (g : FlowGraph) : g.SameNodes g :=
  ⟨rfl, rfl, rfl⟩

theorem SameNodes.addEdge {g g' : FlowGraph} (h : g.SameNodes g') {u v : Node}
    (hu : u ∈ g.nodes) (hv : v ∈ g.nodes) : g.SameNodes (g'.addEdge u v) := by
  rw [← h.nodes_eq] at hu hv
  rw [FlowGraph.addEdge, addNode_of_mem hu, addNode_of_mem hv]
  split
  · exact h
  · exact ⟨h.name_eq, h.params_eq, h.nodes_eq⟩

theorem SameNodes.addEdges {g g' : FlowGraph} (h : g.SameNodes g') {u : Node} (hu : u ∈ g.nodes)
    {ends : List Node} (hends : ∀ v ∈ ends, v ∈ g.nodes) :
    g.SameNodes (ends.foldl (fun g v => g.addEdge u v) g') := by
  induction ends generalizing g' with
  | nil => exact h
  | cons v ends ih =>
    rw [List.forall_mem_cons] at hends
    exact ih (h.addEdge hu hends.1) hends.2

end FlowGraph

namespace Loading

/-! ## Nodes in the order of the text -/

/-- The nodes of statements, numbered from zero. -/
def numbered (codes : List Stmt) : List Node :=
  codes.mapIdx fun i code => .stmt i i code

theorem numbered_concat (codes : List Stmt) (code : Stmt) :
    numbered (codes ++ [code]) = numbered codes ++ [.stmt codes.length codes.length code] :=
  List.mapIdx_concat

theorem nodup_entry_exit_numbered (codes : List Stmt) :
    (Node.entry :: Node.exit :: numbered codes).Nodup := by
  have hnumbered : (numbered codes).Nodup := by
    rw [List.Nodup, List.pairwise_iff_getElem]
    intro i j hi hj hij
    simp only [numbered, List.getElem_mapIdx, ne_eq, Node.stmt.injEq, not_and]
    omega
  simpa [numbered] using hnumbered

/-- Placing nodes numbers their statements on. -/
theorem numbered_of_foldlM {scope : Scope} {nodes : List NodeItem} {placed next : List Placed}
    (before : List Stmt) (hbefore : placed.map Placed.node = numbered before)
    (h : nodes.foldlM (place scope) placed = .ok next) :
    ∃ codes : List Stmt, nodes.map (fun item => statement scope item.code) = codes.map .ok ∧
      next.map Placed.node = numbered (before ++ codes) := by
  induction nodes generalizing placed before with
  | nil =>
    cases h
    exact ⟨[], rfl, by rw [hbefore, List.append_nil]⟩
  | cons item nodes ih =>
    rw [List.foldlM_cons, bind_eq_ok_iff] at h
    obtain ⟨more, hplace, h⟩ := h
    obtain ⟨id, code, _, _, hcode, rfl⟩ := place_eq_ok_iff.mp hplace
    have hlength : placed.length = before.length := by
      simpa [numbered] using congrArg List.length hbefore
    obtain ⟨codes, hcodes, hnext⟩ := ih (before ++ [code])
      (by rw [List.map_append, hbefore, numbered_concat, hlength]; rfl) h
    refine ⟨code :: codes, ?_, ?_⟩
    · rw [List.map_cons, List.map_cons, hcode, hcodes]
    · rw [hnext, List.append_assoc, List.singleton_append]

/-! ## Edges between them -/

theorem successor_mem {placed : List Placed} {form : Form} {n : Node}
    (h : successor placed form = .ok n) : n ∈ placed.map Placed.node := by
  obtain ⟨id, _, h⟩ := bind_eq_ok_iff.mp h
  split at h
  next p hfind =>
    cases h
    exact List.mem_map_of_mem (List.mem_of_find?_eq_some hfind)
  next => cases h

/-- Control goes to a placed node or to the exit. -/
theorem destination_mem {placed : List Placed} {p : Placed} {ends : List Node}
    (h : destinations placed p = .ok ends) :
    ∀ v ∈ ends, v = .exit ∨ v ∈ placed.map Placed.node := by
  rw [destinations] at h
  split at h
  · cases h
    simp
  · exact mapM_forall (fun _ _ h => Or.inr (successor_mem h)) h

/-- What is assembled has the nodes of the statements and otherwise what the draft says. -/
theorem shape_of_assemble {name : String} {d : Draft} {g : FlowGraph}
    (h : assemble name d = .ok g) :
    ∃ codes : List Stmt, d.nodes.map (fun item => statement d.scope item.code) = codes.map .ok ∧
      g.name = name ∧ g.params = d.params ∧ g.nodes = .entry :: .exit :: numbered codes := by
  obtain ⟨placed, hplaced, h⟩ := bind_eq_ok_iff.mp h
  obtain ⟨codes, hcodes, hnodes⟩ := numbered_of_foldlM [] rfl hplaced
  rw [List.nil_append] at hnodes
  let bare : FlowGraph :=
    { FlowGraph.empty name d.params with nodes := .entry :: .exit :: numbered codes }
  have hbare : placed.foldl (fun g p => g.addNode p.node) (FlowGraph.empty name d.params) =
      bare := by
    have hadd : (numbered codes).foldl FlowGraph.addNode (FlowGraph.empty name d.params) = bare :=
      FlowGraph.foldl_addNode (nodup_entry_exit_numbered codes)
    rwa [← hnodes, List.foldl_map] at hadd
  have hmem : ∀ p ∈ placed, p.node ∈ bare.nodes := by
    intro p hp
    have hp' : p.node ∈ numbered codes := hnodes ▸ List.mem_map_of_mem hp
    exact List.mem_cons_of_mem _ (List.mem_cons_of_mem _ hp')
  -- the edge from the entry, then those that are written: all ends are there
  have hentered : bare.SameNodes
      ((placed.take 1).foldl (fun g p => g.addEdge .entry p.node) bare) := by
    have hfirst : ∀ v ∈ (placed.take 1).map Placed.node, v ∈ bare.nodes :=
      List.forall_mem_map.mpr fun p hp => hmem p (List.mem_of_mem_take hp)
    have hadd := (FlowGraph.SameNodes.refl bare).addEdges (u := .entry) List.mem_cons_self hfirst
    rwa [List.foldl_map] at hadd
  rw [hbare] at h
  have hsame : bare.SameNodes g := by
    refine foldlM_invariant (P := bare.SameNodes) ?_ hentered h
    intro p hp g₁ g₂ hg₁ hconnect
    obtain ⟨ends, hends, hconnect⟩ := bind_eq_ok_iff.mp hconnect
    cases hconnect
    refine hg₁.addEdges (hmem p hp) fun v hv => ?_
    rcases destination_mem hends v hv with rfl | hv
    · exact List.mem_cons_of_mem _ List.mem_cons_self
    · obtain ⟨q, hq, rfl⟩ := List.mem_map.mp hv
      exact hmem q hq
  exact ⟨codes, hcodes, hsame.name_eq, hsame.params_eq, hsame.nodes_eq⟩

/-! ## Procedures -/

/-- The variables that a procedure declares. -/
def declaredVars : Form → List Var
  | .list (_ :: _ :: items) => items.flatMap declaredIn
  | _ => []

/-- What the graph of a form has to do with the form. -/
theorem shape_of_procedure {form : Form} {g : FlowGraph} (h : procedure form = .ok g) :
    ∃ name items codes, form = .list (.symbol "procedure" :: .symbol name :: items) ∧
      (namesIn items).Nodup ∧
      (nodesIn items).map (fun item => statement (items.flatMap declaredIn) item.code) =
        codes.map .ok ∧
      g.name = name ∧ g.params = items.flatMap paramsIn ∧
      g.nodes = .entry :: .exit :: numbered codes := by
  obtain ⟨name, items, rfl⟩ := procedure_eq_list_of_succeeds ⟨g, h⟩
  obtain ⟨_, hnames, _, h⟩ := procedure_eq_ok_iff.mp h
  obtain ⟨codes, hcodes, hshape⟩ := shape_of_assemble h
  exact ⟨name, items, codes, rfl, hnames, hcodes, hshape⟩

theorem nodup_declaredVars {form : Form} {g : FlowGraph} (h : procedure form = .ok g) :
    ((declaredVars form).map Var.name).Nodup := by
  obtain ⟨name, items, codes, rfl, hnodup, _⟩ := shape_of_procedure h
  exact hnodup

/-! ## What is declared -/

theorem paramsIn_subset (item : Form) : paramsIn item ⊆ declaredIn item := by
  unfold paramsIn
  split
  · exact List.Subset.refl _
  · exact List.nil_subset _

theorem resolve_mem {scope : Scope} {f : Form} {x : Var} (h : scope.resolve f = .ok x) :
    x ∈ scope := by
  obtain ⟨name, _, h⟩ := bind_eq_ok_iff.mp h
  split at h
  next y hfind =>
    cases h
    exact List.mem_of_find?_eq_some hfind
  next => cases h

theorem target_mem {scope : Scope} {f : Form} {x : Var} (h : target scope f = .ok (.var x)) :
    x ∈ scope := by
  unfold target at h
  split at h
  · obtain ⟨parts, _, h⟩ := bind_eq_ok_iff.mp h
    cases h
  · obtain ⟨y, hy, h⟩ := bind_eq_ok_iff.mp h
    cases h
    exact resolve_mem hy

/-- A statement that assigns a variable was loaded with that variable in scope. -/
theorem assigned_mem {scope : Scope} {form : Form} {x : Var} {e : Expr}
    (h : statement scope form = .ok (.assign (.var x) e)) : x ∈ scope := by
  cases stmtForm_of_succeeds ⟨_, h⟩ with
  | @assign t e ht he =>
    change (target scope t >>= fun t => expression scope e >>= fun e => pure (Stmt.assign t e)) =
      .ok _ at h
    obtain ⟨t', ht', h⟩ := bind_eq_ok_iff.mp h
    obtain ⟨e', _, h⟩ := bind_eq_ok_iff.mp h
    cases h
    exact target_mem ht'
  | @branch e he =>
    change (expression scope e >>= fun e => pure (Stmt.branch e)) = .ok _ at h
    obtain ⟨e', _, h⟩ := bind_eq_ok_iff.mp h
    cases h
  | jump => cases h
  | leave => cases h
  | @ret e he =>
    change (expression scope e >>= fun e => pure (Stmt.ret (some e))) = .ok _ at h
    obtain ⟨e', _, h⟩ := bind_eq_ok_iff.mp h
    cases h
  | nop => cases h
  | @invoke method args hargs =>
    change (expressions scope args >>= fun es => pure (Stmt.call method es)) = .ok _ at h
    obtain ⟨es, _, h⟩ := bind_eq_ok_iff.mp h
    cases h

theorem params_subset_declaredVars {form : Form} {g : FlowGraph} (h : procedure form = .ok g) :
    g.params ⊆ declaredVars form := by
  obtain ⟨name, items, codes, rfl, _, _, _, hparams, _⟩ := shape_of_procedure h
  intro x hx
  rw [hparams] at hx
  obtain ⟨item, hitem, hx⟩ := List.mem_flatMap.mp hx
  exact List.mem_flatMap.mpr ⟨item, hitem, paramsIn_subset item hx⟩

theorem assigned_mem_declaredVars {form : Form} {g : FlowGraph} (h : procedure form = .ok g)
    {n : Node} (hn : n ∈ g.nodes) {x : Var} {e : Expr} (hcode : n.code = .assign (.var x) e) :
    x ∈ declaredVars form := by
  obtain ⟨name, items, codes, rfl, _, hcodes, _, _, hnodes⟩ := shape_of_procedure h
  rw [hnodes, List.mem_cons, List.mem_cons] at hn
  rcases hn with rfl | rfl | hn
  · cases hcode
  · cases hcode
  · obtain ⟨i, hi, rfl⟩ := List.mem_mapIdx.mp hn
    have hloaded : Except.ok codes[i] ∈
        (nodesIn items).map fun item => statement (items.flatMap declaredIn) item.code := by
      rw [hcodes]
      exact List.mem_map_of_mem (List.getElem_mem hi)
    obtain ⟨item, _, hitem⟩ := List.mem_map.mp hloaded
    have hassign : codes[i] = .assign (.var x) e := hcode
    rw [hassign] at hitem
    exact assigned_mem hitem

end Loading

end ConstantFlow

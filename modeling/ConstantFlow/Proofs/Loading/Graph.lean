import ConstantFlow.Loading.Procedure
import ConstantFlow.Proofs.FlowGraph.Built

/-!
# Graphs of loaded procedures

Loading a procedure builds its graph by adding nodes and edges, and no edge leads back to the
entry: control enters a procedure once.

Main results:

* `EnteredOnce.connect`: no edge of a placed node leads to the entry
* `enteredOnce_of_procedure`: no edge of a loaded graph does
-/

namespace ConstantFlow.Loading

/-- A load in two steps succeeds exactly if both do. -/
theorem bind_eq_ok_iff {α β ε : Type} {r : Except ε α} {f : α → Except ε β} {b : β} :
    (r >>= f) = .ok b ↔ ∃ a, r = .ok a ∧ f a = .ok b := by
  cases r with
  | error e =>
    constructor
    · intro h
      cases h
    · rintro ⟨a, h, _⟩
      cases h
  | ok a =>
    constructor
    · intro h
      exact ⟨a, rfl, h⟩
    · rintro ⟨c, hc, h⟩
      cases hc
      exact h

/-- What every step of a fold keeps holds of its result, if there is one. -/
theorem foldlM_invariant {α β ε : Type} {P : β → Prop} {f : β → α → Except ε β}
    {xs : List α} (hstep : ∀ x ∈ xs, ∀ b c, P b → f b x = .ok c → P c) {b c : β} (hb : P b)
    (h : xs.foldlM f b = .ok c) : P c := by
  induction xs generalizing b with
  | nil =>
    cases h
    exact hb
  | cons x xs ih =>
    rw [List.foldlM_cons, bind_eq_ok_iff] at h
    rcases h with ⟨d, hx, h⟩
    rw [List.forall_mem_cons] at hstep
    exact ih hstep.2 (hstep.1 b d hb hx) h

/-- What every form that is loaded leads to holds of all results of a list of forms. -/
theorem mapM_forall {α β ε : Type} {P : β → Prop} {f : α → Except ε β}
    (hf : ∀ x b, f x = .ok b → P b) {xs : List α} {bs : List β} (h : xs.mapM f = .ok bs) :
    ∀ b ∈ bs, P b := by
  induction xs generalizing bs with
  | nil =>
    cases h
    intro b hb
    cases hb
  | cons x xs ih =>
    rw [List.mapM_cons, bind_eq_ok_iff] at h
    rcases h with ⟨c, hx, h⟩
    rw [bind_eq_ok_iff] at h
    rcases h with ⟨cs, hxs, h⟩
    cases h
    intro b hb
    rcases List.mem_cons.mp hb with rfl | hb
    · exact hf x b hx
    · exact ih hxs b hb

/-! ## Nodes -/

/-- A node is placed behind the others, under a number that is not taken. -/
theorem place_eq_ok_iff {scope : Scope} {placed next : List Placed} {item : NodeItem} :
    place scope placed item = .ok next ↔
      ∃ id code, integerValue item.id = .ok id ∧ placed.any (·.id == id) = false ∧
        statement scope item.code = .ok code ∧
        next = placed ++
          [{ id, node := .stmt placed.length placed.length code, succs := item.succs }] := by
  simp only [place, bind_eq_ok_iff]
  constructor
  · rintro ⟨id, hid, h⟩
    split at h
    · cases h
    case isFalse hfree =>
      rcases bind_eq_ok_iff.mp h with ⟨code, hcode, h⟩
      cases h
      exact ⟨id, code, hid, by simpa using hfree, hcode, rfl⟩
  · rintro ⟨id, code, hid, hfree, hcode, rfl⟩
    refine ⟨id, hid, ?_⟩
    rw [if_neg (by simp [hfree]), hcode]
    rfl

/-- None of the nodes is the entry. -/
def Statements (placed : List Placed) : Prop :=
  ∀ p ∈ placed, p.node ≠ .entry

theorem Statements.place {scope : Scope} {placed next : List Placed} {item : NodeItem}
    (hp : Statements placed) (h : place scope placed item = .ok next) : Statements next := by
  rcases place_eq_ok_iff.mp h with ⟨id, code, _, _, _, rfl⟩
  intro p hm
  rcases List.mem_append.mp hm with hm | hm
  · exact hp p hm
  · rw [List.mem_singleton.mp hm]
    nofun

/-! ## Edges -/

theorem Statements.successor_ne_entry {placed : List Placed} (hp : Statements placed)
    {form : Form} {n : Node} (h : successor placed form = .ok n) : n ≠ .entry := by
  rcases bind_eq_ok_iff.mp h with ⟨id, _, h⟩
  split at h
  next p hfind =>
    -- a number stands for a node that has been placed
    cases h
    exact hp p (List.mem_of_find?_eq_some hfind)
  next => cases h

theorem Statements.destination_ne_entry {placed : List Placed} (hp : Statements placed)
    {p : Placed} {ends : List Node} (h : destinations placed p = .ok ends) :
    ∀ v ∈ ends, v ≠ .entry := by
  rw [destinations] at h
  split at h
  · cases h
    simp
  · exact mapM_forall (fun _ _ h => hp.successor_ne_entry h) h

/-- The graph is built, and no edge leads to its entry. -/
def EnteredOnce (g : FlowGraph) : Prop :=
  g.Built ∧ ∀ u, (u, .entry) ∉ g.edges

theorem EnteredOnce.addNode {g : FlowGraph} (h : EnteredOnce g) (n : Node) :
    EnteredOnce (g.addNode n) :=
  ⟨h.1.addNode n, fun u => FlowGraph.edges_addNode g n ▸ h.2 u⟩

theorem EnteredOnce.addEdge {g : FlowGraph} (h : EnteredOnce g) (u : Node) {v : Node}
    (hv : v ≠ .entry) : EnteredOnce (g.addEdge u v) := by
  refine ⟨h.1.addEdge u v, fun w hw => ?_⟩
  rcases FlowGraph.mem_edges_addEdge.mp hw with he | he
  · exact h.2 w he
  · exact hv (congrArg Prod.snd he).symm

theorem EnteredOnce.addNodes {g : FlowGraph} (h : EnteredOnce g) (placed : List Placed) :
    EnteredOnce (placed.foldl (fun g p => g.addNode p.node) g) := by
  induction placed generalizing g with
  | nil => exact h
  | cons p placed ih => exact ih (h.addNode p.node)

theorem EnteredOnce.addEdges {g : FlowGraph} (h : EnteredOnce g) (u : Node) {ends : List Node}
    (he : ∀ v ∈ ends, v ≠ .entry) : EnteredOnce (ends.foldl (fun g v => g.addEdge u v) g) := by
  induction ends generalizing g with
  | nil => exact h
  | cons v ends ih =>
    exact ih (h.addEdge u (he v List.mem_cons_self)) fun w hw => he w (List.mem_cons_of_mem _ hw)

theorem EnteredOnce.connect {placed : List Placed} (hp : Statements placed) {g g' : FlowGraph}
    (hg : EnteredOnce g) {p : Placed} (h : connect placed g p = .ok g') : EnteredOnce g' := by
  rcases bind_eq_ok_iff.mp h with ⟨ends, hends, h⟩
  cases h
  exact hg.addEdges p.node (hp.destination_ne_entry hends)

/-! ## Procedures -/

theorem enteredOnce_of_assemble {name : String} {d : Draft} {g : FlowGraph}
    (h : assemble name d = .ok g) : EnteredOnce g := by
  rcases bind_eq_ok_iff.mp h with ⟨placed, hplaced, h⟩
  -- the nodes come first, then the edge from the entry, then the edges that are written
  have hp : Statements placed :=
    foldlM_invariant (P := Statements) (fun _ _ _ _ hb hx => hb.place hx)
      (fun p hm => by cases hm) hplaced
  have hempty : EnteredOnce (FlowGraph.empty name d.params) := ⟨.empty _ _, fun _ hu => by cases hu⟩
  have hfirst : ∀ v ∈ (placed.take 1).map Placed.node, v ≠ .entry := by
    intro v hv
    rcases List.mem_map.mp hv with ⟨p, hm, rfl⟩
    exact hp p (List.mem_of_mem_take hm)
  have hentered := (hempty.addNodes placed).addEdges .entry hfirst
  rw [List.foldl_map] at hentered
  exact foldlM_invariant (P := EnteredOnce) (fun _ _ _ _ hg hx => hg.connect hp hx) hentered h

/-- A loaded procedure has a graph that control enters once. -/
theorem enteredOnce_of_procedure {form : Form} {g : FlowGraph} (h : procedure form = .ok g) :
    EnteredOnce g := by
  rcases bind_eq_ok_iff.mp h with ⟨items, _, h⟩
  split at h
  · rcases bind_eq_ok_iff.mp h with ⟨tag, _, h⟩
    split at h
    · cases h
    · rcases bind_eq_ok_iff.mp h with ⟨name, _, h⟩
      rcases bind_eq_ok_iff.mp h with ⟨draft, _, h⟩
      split at h
      · cases h
      · exact enteredOnce_of_assemble h
  · cases h

end ConstantFlow.Loading

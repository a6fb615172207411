import ConstantFlow.Proofs.Loading.Shape
import ConstantFlow.Proofs.Propagation.Cause
import ConstantFlow.Proofs.Report.Reading
import ConstantFlow.Proofs.Word
import ConstantFlow.Report.Basic
import Mathlib.Data.String.Basic

/-!
# Facts as dictionaries

A dictionary shows a fact by the names of its variables, without their types. Nothing is lost as
long as the names differ: there is one item for each entry, the names stand in increasing order, and
the fact can be read back. The names do differ in a loaded procedure, since whatever becomes known
during a run is declared, and no name is declared twice.

Main results:

* `read_dictionary`: a fact can be read back from its dictionary
* `dictionary_eq_iff`: dictionaries are equal exactly if the facts are the same
* `dictionary_loses_nothing`: this for all facts of a loaded procedure
-/

namespace ConstantFlow

/-! ## Bindings with distinct keys -/

namespace Entries

variable {α β : Type} [DecidableEq α]

theorem foldl_put_eq_append {es bindings : List (α × β)}
    (h : ((es ++ bindings).map Prod.fst).Nodup) :
    bindings.foldl (fun es b => put b.1 b.2 es) es = es ++ bindings := by
  induction bindings generalizing es with
  | nil => simp
  | cons b bindings ih =>
    rw [← List.singleton_append, ← List.append_assoc] at h ⊢
    have hnew : b.1 ∉ es.map Prod.fst := by
      rw [List.map_append, List.map_append] at h
      simpa using (List.nodup_append'.mp h.of_append_left).2.2
    rw [List.singleton_append, List.foldl_cons, put_of_not_mem hnew, ih h]

/-- Where every key is bound once, the bindings are the map. -/
theorem ofList_eq_self {bindings : List (α × β)} (h : (bindings.map Prod.fst).Nodup) :
    ofList bindings = bindings :=
  foldl_put_eq_append h

end Entries

/-! ## Texts of values -/

/-- The value that a text stands for. -/
def Value.ofText? (s : String) : Option Value :=
  match s.toList with
  | '#' :: number =>
    match Decimal.number? number with
    | some (n, []) => some (.ofInt n)
    | _ => none
  | _ =>
    if s = Value.undefined.text then some .undefined
    else if s = Value.nac.text then some .nac
    else none

theorem Value.ofText?_text (v : Value) : ofText? v.text = some v := by
  cases v with
  | undefined => rfl
  | nac => rfl
  | const c =>
    have htext : (Value.const c).text.toList = '#' :: (toString c.toInt).toList := by
      rw [text, String.toList_append]
      rfl
    have hread : Decimal.number? (toString c.toInt).toList = some (c.toInt, []) := by
      have hnone : Decimal.Stops [] := nofun
      simpa using Decimal.number?_toString c.toInt hnone
    simp only [ofText?, htext, hread, ofInt_eq, Int32.ofInt_toInt]

namespace Report

/-! ## Dictionaries -/

/-- An item of a dictionary. -/
def item (e : Var × Value) : String × String :=
  (e.1.name, e.2.text)

variable {f f' : Fact}

theorem byName_perm (f : Fact) : f.byName.Perm f.entries :=
  List.mergeSort_perm _ _

theorem sorted_byName (f : Fact) : f.byName.Pairwise fun a b => a.1.name ≤ b.1.name := by
  have hsorted := List.pairwise_mergeSort
    (fun (a b c : Var × Value) hab hbc => decide_eq_true
      (le_trans (of_decide_eq_true hab : a.1.name ≤ b.1.name) (of_decide_eq_true hbc)))
    (fun a b => by simpa using le_total a.1.name b.1.name) f.entries
  exact hsorted.imp of_decide_eq_true

theorem map_fst_map_item (es : List (Var × Value)) :
    (es.map item).map Prod.fst = (es.map Prod.fst).map Var.name := by
  simp [item]

/-- If all names differ, the dictionary shows every entry. -/
theorem dictionary_eq_map (h : (f.keys.map Var.name).Nodup) :
    dictionary f = f.byName.map item := by
  refine Entries.ofList_eq_self ?_
  change ((f.byName.map item).map Prod.fst).Nodup
  rw [map_fst_map_item]
  exact ((((byName_perm f).map Prod.fst).map Var.name).nodup_iff).mpr h

theorem dictionary_perm (h : (f.keys.map Var.name).Nodup) :
    (dictionary f).Perm (f.entries.map item) := by
  rw [dictionary_eq_map h]
  exact (byName_perm f).map item

theorem nodup_dictionary (h : (f.keys.map Var.name).Nodup) :
    ((dictionary f).map Prod.fst).Nodup := by
  rw [((dictionary_perm h).map Prod.fst).nodup_iff, map_fst_map_item]
  exact h

theorem sorted_dictionary (h : (f.keys.map Var.name).Nodup) :
    ((dictionary f).map Prod.fst).Pairwise (· < ·) := by
  have hle : ((dictionary f).map Prod.fst).Pairwise (· ≤ ·) := by
    rw [dictionary_eq_map h, List.pairwise_map, List.pairwise_map]
    exact sorted_byName f
  exact hle.imp₂ (fun _ _ hab hne => lt_of_le_of_ne hab hne) (nodup_dictionary h)

/-! ## Reading back -/

/-- What a dictionary says about a variable; an absent name says nothing. -/
def read (d : List (String × String)) (x : Var) : Value :=
  ((d.lookup x.name).bind Value.ofText?).getD .undefined

section Names

variable {xs : List Var} (hxs : (xs.map Var.name).Nodup)

include hxs

/-- Variables out of a list without equal names have different names. -/
theorem nodup_names (hf : f.Lawful) (hkeys : f.keys ⊆ xs) : (f.keys.map Var.name).Nodup :=
  hf.nodup.map_on fun _ hy _ hz => List.inj_on_of_nodup_map hxs (hkeys hy) (hkeys hz)

theorem read_dictionary (hf : f.Lawful) (hkeys : f.keys ⊆ xs) {x : Var} (hx : x ∈ xs) :
    read (dictionary f) x = f.get x := by
  have hnames := nodup_names hxs hf hkeys
  by_cases hlisted : x ∈ f.keys
  · obtain ⟨e, he, rfl⟩ := List.mem_map.mp hlisted
    have hitem : item e ∈ dictionary f :=
      (dictionary_perm hnames).mem_iff.mpr (List.mem_map_of_mem he)
    have hlookup : (dictionary f).lookup e.1.name = some e.2.text :=
      Entries.lookup_of_mem (nodup_dictionary hnames) hitem
    rw [read, hlookup, Option.bind_some, Value.ofText?_text, hf.get_of_mem he]
    rfl
  · -- a name that is shown belongs to a listed variable, which is the only one of that name
    have habsent : x.name ∉ (dictionary f).map Prod.fst := by
      rw [((dictionary_perm hnames).map Prod.fst).mem_iff, map_fst_map_item]
      intro hname
      obtain ⟨y, hy, hyx⟩ := List.mem_map.mp hname
      exact hlisted (List.inj_on_of_nodup_map hxs (hkeys hy) hx hyx ▸ hy)
    rw [read, Entries.lookup_eq_none_of_not_mem habsent, Fact.get_of_not_mem_keys hlisted]
    rfl

/-- Two facts about such variables have the same dictionary exactly if they are equal as maps. -/
theorem dictionary_eq_iff (hf : f.Lawful) (hf' : f'.Lawful) (hkeys : f.keys ⊆ xs)
    (hkeys' : f'.keys ⊆ xs) : dictionary f = dictionary f' ↔ f.same f' = true := by
  rw [Fact.same_iff hf hf']
  constructor
  · intro h
    funext x
    by_cases hx : x ∈ xs
    · rw [← read_dictionary hxs hf hkeys hx, h, read_dictionary hxs hf' hkeys' hx]
    · rw [Fact.get_of_not_mem_keys fun hkey => hx (hkeys hkey),
        Fact.get_of_not_mem_keys fun hkey => hx (hkeys' hkey)]
  · intro hget
    have hentries : f.entries.Perm f'.entries := by
      rw [List.perm_ext_iff_of_nodup (hf.nodup.of_map _) (hf'.nodup.of_map _)]
      intro e
      rw [hf.mem_entries_iff, hf'.mem_entries_iff, hget]
    have hnames := nodup_names hxs hf hkeys
    have hnames' := nodup_names hxs hf' hkeys'
    have hperm : (dictionary f).Perm (dictionary f') :=
      calc (dictionary f).Perm (f.entries.map item) := dictionary_perm hnames
        List.Perm _ (f'.entries.map item) := hentries.map item
        List.Perm _ (dictionary f') := (dictionary_perm hnames').symm
    -- lists in increasing order have the same elements only if they are the same
    refine List.Perm.eq_of_pairwise (fun a b _ _ hab hba => ?_)
      (List.pairwise_map.mp (sorted_dictionary hnames))
      (List.pairwise_map.mp (sorted_dictionary hnames')) hperm
    exact absurd hab (lt_asymm hba)

end Names

/-! ## Loaded procedures -/

open Loading Propagation Worklist

/-- The facts that a report shows. -/
def factsIn (table : FactTable Fact) : List Fact :=
  table.flatMap fun row => [row.2.input, row.2.output]

section Loaded

variable {form : Form} {g : FlowGraph} (hform : Loading.procedure form = .ok g) {s : State Fact}

include hform

theorem declared_of_justifies {n : Node} {x : Var} (h : g.Justifies n x) :
    x ∈ declaredVars form := by
  rcases h with ⟨hx, _⟩ | ⟨m, hm, ⟨e, hcode⟩, _⟩
  · exact params_subset_declaredVars hform hx
  · exact assigned_mem_declaredVars hform hm hcode

/-- What arrives at a node of a loaded procedure is declared. -/
theorem input_keys_subset (h : Reached analysis g s) (n : Node) :
    (s.input analysis n).keys ⊆ declaredVars form := by
  have hg := (enteredOnce_of_procedure hform).1.wellFormed
  intro x hx
  have hknown := get_ne_of_mem_keys ((invariant_of_reached hg h).lawful_input n) hx
  exact declared_of_justifies hform (justified_of_reached hg h n x hknown).2

theorem output_keys_subset (h : Reached analysis g s) {n : Node} (hn : n ∈ g.nodes) :
    (s.output analysis n).keys ⊆ declaredVars form := by
  have hg := (enteredOnce_of_procedure hform).1.wellFormed
  have hinv := invariant_of_reached hg h
  intro x hx
  rcases hinv.source_of_output (get_ne_of_mem_keys (hinv.lawful_output n) hx) with
    hin | ⟨⟨e, hcode⟩, _⟩ | ⟨_, hparam, _⟩
  · exact declared_of_justifies hform (justified_of_reached hg h n x hin).2
  · exact assigned_mem_declaredVars hform hn hcode
  · exact params_subset_declaredVars hform hparam

theorem lawful_and_declared {bound : Int} {table : FactTable Fact}
    (hsolve : solve g bound = .ok table) (hf : f ∈ factsIn table) :
    f.Lawful ∧ f.keys ⊆ declaredVars form := by
  have hg := (enteredOnce_of_procedure hform).1.wellFormed
  obtain ⟨⟨n, facts⟩, hrow, hf⟩ := List.mem_flatMap.mp hf
  obtain ⟨s, hr, _, hn, rfl⟩ := row_of_solve hg hsolve hrow
  have hinv := invariant_of_reached hg hr
  rw [List.mem_cons, List.mem_singleton] at hf
  rcases hf with rfl | rfl
  · exact ⟨hinv.lawful_input n, input_keys_subset hform hr n⟩
  · exact ⟨hinv.lawful_output n, output_keys_subset hform hr hn⟩

end Loaded

/-- A report on a loaded procedure loses nothing. No two declared variables share their name, and
the facts are about declared variables. The dictionary of a fact shows each of its entries once, by
strictly increasing name, and says about every declared variable what the fact says. So two facts of
the procedure have the same dictionary exactly if they are equal as maps, also if they come from
runs with different bounds. -/
theorem dictionary_loses_nothing {form : Form} {g : FlowGraph}
    (hform : Loading.procedure form = .ok g) {bound : Int} {table : FactTable Fact}
    (hsolve : solve g bound = .ok table) :
    ((declaredVars form).map Var.name).Nodup ∧
      (∀ f ∈ factsIn table,
        f.keys ⊆ declaredVars form ∧
        (dictionary f).Perm (f.entries.map fun e => (e.1.name, e.2.text)) ∧
        ((dictionary f).map Prod.fst).Pairwise (· < ·) ∧
        ∀ x ∈ declaredVars form, read (dictionary f) x = f.get x) ∧
      ∀ bound' table', solve g bound' = .ok table' →
        ∀ f ∈ factsIn table, ∀ f' ∈ factsIn table',
          dictionary f = dictionary f' ↔ f.same f' = true := by
  have hnodup := nodup_declaredVars hform
  refine ⟨hnodup, ?_, ?_⟩
  · intro f hf
    obtain ⟨hlawful, hkeys⟩ := lawful_and_declared hform hsolve hf
    have hnames := nodup_names hnodup hlawful hkeys
    refine ⟨hkeys, dictionary_perm hnames, sorted_dictionary hnames, ?_⟩
    exact fun x hx => read_dictionary hnodup hlawful hkeys hx
  · intro bound' table' hsolve' f hf f' hf'
    obtain ⟨hlawful, hkeys⟩ := lawful_and_declared hform hsolve hf
    obtain ⟨hlawful', hkeys'⟩ := lawful_and_declared hform hsolve' hf'
    exact dictionary_eq_iff hnodup hlawful hlawful' hkeys hkeys'

/-! A procedure whose parameter is declared behind its variable. -/

namespace Declared

def a : Var := { name := "a", type := .primitive .int }
def b : Var := { name := "b", type := .primitive .byte }

/-- `(procedure f (vars (b byte)) (params (a int)) (node 0 (assign b 5)))` -/
def form : Form :=
  .list [.symbol "procedure", .symbol "f",
    .list [.symbol "vars", .list [.symbol "b", .symbol "byte"]],
    .list [.symbol "params", .list [.symbol "a", .symbol "int"]],
    .list [.symbol "node", .integer 0, .list [.symbol "assign", .symbol "b", .integer 5]]]

def set : Node := .stmt 0 0 (.assign (.var b) (.lit 5))

def graph : FlowGraph :=
  [(.entry, set), (set, .exit)].foldl (fun g e => g.addEdge e.1 e.2)
    ((FlowGraph.empty "f" [a]).addNode set)

theorem loads : Loading.procedure form = .ok graph := rfl

theorem returns : solve graph 20 = .ok (after analysis graph 20).table :=
  (solve_eq_ok_iff (enteredOnce_of_procedure loads).1.wellFormed).mpr
    ⟨by decide, by decide, rfl⟩

/-- What is known at the exit. -/
theorem mem_factsIn : ⟨[(a, .nac), (b, .const 5)]⟩ ∈ factsIn (after analysis graph 20).table := by
  decide

end Declared

open Declared in
theorem dictionary_loses_nothing_declared :
    Loading.procedure form = .ok graph ∧ solve graph 20 = .ok (after analysis graph 20).table ∧
      ∃ f ∈ factsIn (after analysis graph 20).table,
        f.get b = .const 5 ∧ read (dictionary f) b = .const 5 ∧
        ((dictionary f).map Prod.fst).Pairwise (· < ·) := by
  obtain ⟨_, hfacts, _⟩ := dictionary_loses_nothing loads returns
  obtain ⟨_, _, hsorted, hread⟩ := hfacts _ mem_factsIn
  exact ⟨loads, returns, _, mem_factsIn, by decide, hread b (by decide), hsorted⟩

end Report

end ConstantFlow

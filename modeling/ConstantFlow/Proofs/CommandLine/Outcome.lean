import ConstantFlow.CommandLine.Run
import ConstantFlow.Proofs.CommandLine.Verbosity
import ConstantFlow.Proofs.Loading.Shape
import ConstantFlow.Proofs.Propagation.Fixpoint
import ConstantFlow.Proofs.Report.Layout
import Mathlib.Data.List.TakeWhile

/-!
# All or nothing

A command line that asks for an analysis ends with a whole report and code 0, or with nothing on the
standard output and code 2, unless it is broken off. It is broken off exactly if the system does not
tell whether there is a file, or if a number in the report cannot be written; the second happens
only with a reading that lets such numbers in, and may leave the beginning of a table behind. How
much is told on the way changes neither the ending nor the standard output.

Main results:

* `course_analyse`: the three ways that an analysis can take
* `perform_eq_answer`: what these ways come to
* `run_all_or_nothing`: when a command line ends how, and what it leaves on the standard output
* `overlong_name_breaks_off`: a name can be too long to be looked up
-/

namespace ConstantFlow

/-! ## Rows of a report -/

namespace Report

theorem label_eq_of_writable {i : Nat} {j : Int} {c : Stmt} (h : c.writable = true) :
    label (.stmt i j c) = some c.text :=
  if_pos h

theorem isSome_label (n : Node) : (label n).isSome = n.writable := by
  cases n with
  | entry => rfl
  | exit => rfl
  | stmt i j c =>
    change (if c.writable then some c.text else none).isSome = c.writable
    cases c.writable <;> rfl

/-- A row has a label exactly if its node can be written. -/
theorem labelled_ofTable_iff {g : FlowGraph} {table : FactTable Fact} :
    (∀ r ∈ (ofTable g table).rows, labelled r = true) ↔
      ∀ n ∈ table.map Prod.fst, n.writable = true := by
  simp only [ofTable, List.forall_mem_map, labelled, isSome_label]

/-- A report has a row for each node, in the order of the table. -/
theorem rows_ofTable (g : FlowGraph) (table : FactTable Fact) :
    (ofTable g table).rows.map (fun r => (r.index, r.label)) =
      (table.map Prod.fst).map fun n => (n.index, label n) := by
  simp [ofTable]

/-- The rows for the entry, the exit and numbered statements. -/
theorem rows_numbered {codes : List Stmt} (h : ∀ c ∈ codes, c.writable = true) :
    (Node.entry :: Node.exit :: Loading.numbered codes).map (fun n => (n.index, label n)) =
      (-1, some "[entry]") :: (-1, some "[exit]") ::
        codes.mapIdx fun i c => ((i : Int), some c.text) := by
  rw [List.map_cons, List.map_cons, Loading.numbered, List.mapIdx_eq_zipIdx_map,
    List.mapIdx_eq_zipIdx_map, List.map_map]
  have hrows : ∀ p ∈ codes.zipIdx, ((p.2 : Int), label (.stmt p.2 p.2 p.1)) =
      ((p.2 : Int), some p.1.text) := by
    intro p hp
    rw [label_eq_of_writable (h p.1 (List.fst_mem_of_mem_zipIdx hp))]
  exact congrArg _ (congrArg _ (List.map_congr_left hrows))

end Report

namespace CommandLine

open Worklist (after)
open Propagation (analysis solve)
open Loading (Reading)

/-! ## Steps -/

variable {reading : Reading} {state : PathState}

/-- What is found at a path is a file with the text of a procedure that has this graph. -/
def Holds (reading : Reading) (state : PathState) (g : FlowGraph) : Prop :=
  ∃ bytes chars, state = .file bytes ∧ Text.Utf8.decode bytes = .ok chars ∧
    Loading.source reading (Text.unifyNewlines chars) = .ok g

theorem file_eq_ok_iff {bytes : List UInt8} {g : FlowGraph} :
    Loading.file reading bytes = .ok g ↔
      ∃ chars, Text.Utf8.decode bytes = .ok chars ∧
        Loading.source reading (Text.unifyNewlines chars) = .ok g := by
  unfold Loading.file
  cases Text.Utf8.decode bytes with
  | error e => simp
  | ok chars =>
    cases h : Loading.source reading (Text.unifyNewlines chars) with
    | error e => simp [h]
    | ok g' => simp [h]

theorem load_eq_ok_iff {path : String} {g : FlowGraph} :
    load reading path state = .ok g ↔ Holds reading state g := by
  cases state with
  | file bytes =>
    have hload : load reading path (.file bytes) = .ok g ↔
        Loading.file reading bytes = .ok g := by
      rw [load]
      cases Loading.file reading bytes <;> simp [Except.mapError]
    rw [hload, file_eq_ok_iff]
    simp [Holds]
  | _ => simp [load, Holds]

/-- Loading fails for good only if the path cannot be looked up. -/
theorem stop_of_load {path : String} {stop : Stop} (h : load reading path state = .error stop) :
    (∃ e, state = .unreachable e ∧ stop = .crash (.unreachable path e)) ∨
      (∀ e, state ≠ .unreachable e) ∧ ∃ f, stop = .failure f := by
  cases state with
  | unreachable e =>
    cases h
    exact Or.inl ⟨e, rfl, rfl⟩
  | file bytes =>
    refine Or.inr ⟨nofun, ?_⟩
    rw [load] at h
    cases hfile : Loading.file reading bytes with
    | ok g =>
      rw [hfile] at h
      cases h
    | error e =>
      rw [hfile] at h
      cases h
      exact ⟨_, rfl⟩
  | _ =>
    cases h
    exact Or.inr ⟨nofun, _, rfl⟩

/-- Only procedures are loaded. -/
theorem Holds.exists_form {g : FlowGraph} (h : Holds reading state g) :
    ∃ form, Loading.procedure form = .ok g := by
  obtain ⟨bytes, chars, _, _, hsource⟩ := h
  unfold Loading.source at hsource
  split at hsource
  next form _ => exact ⟨form, hsource⟩
  next => cases hsource

theorem Holds.wellFormed {g : FlowGraph} (h : Holds reading state g) : g.WellFormed := by
  obtain ⟨form, hform⟩ := h.exists_form
  exact (Loading.enteredOnce_of_procedure hform).1.wellFormed

theorem Holds.unique {g g' : FlowGraph} (h : Holds reading state g) (h' : Holds reading state g') :
    g = g' := by
  have hload : load reading "" state = .ok g := load_eq_ok_iff.mpr h
  rw [load_eq_ok_iff.mpr h'] at hload
  exact (Except.ok.inj hload).symm

theorem Holds.reachable {g : FlowGraph} (h : Holds reading state g) (e : SystemError) :
    state ≠ .unreachable e := by
  obtain ⟨bytes, _, rfl, _⟩ := h
  nofun

/-- The lines that are told do not matter to the facts. -/
theorem snd_solveLogged (g : FlowGraph) (bound : Int) :
    (solveLogged g bound).2 = solve g bound := by
  unfold solveLogged solve
  cases Propagation.run g bound with
  | error e => rfl
  | ok r => cases h : r.outcome <;> simp [h, bind, Except.bind]

/-! ## Analyses -/

/-- The facts of the procedure that is found settle within the bound, with this table. -/
structure Settles (reading : Reading) (state : PathState) (bound : Int) (g : FlowGraph)
    (table : FactTable Fact) : Prop where
  holds : Holds reading state g
  solved : solve g bound = .ok table

/-- The ways that an analysis can take. -/
inductive Course (reading : Reading) (path : String) (state : PathState) (bound : Int) :
    Except Stop Report → Prop where
  | unreachable {e : SystemError} :
    state = .unreachable e →
      Course reading path state bound (.error (.crash (.unreachable path e)))
  | failure {f : Failure} :
    (∀ e, state ≠ .unreachable e) → (∀ g table, ¬ Settles reading state bound g table) →
      Course reading path state bound (.error (.failure f))
  | report {g : FlowGraph} {table : FactTable Fact} :
    Settles reading state bound g table → Course reading path state bound (.ok (.ofTable g table))

theorem course_analyse (reading : Reading) (path : String) (state : PathState) (bound : Int) :
    Course reading path state bound (analyse reading path (some bound) state).2 := by
  unfold analyse
  cases hload : load reading path state with
  | error stop =>
    rcases stop_of_load hload with ⟨e, hstate, rfl⟩ | ⟨hstate, f, rfl⟩
    · exact .unreachable hstate
    · refine .failure hstate ?_
      rintro g table ⟨hg, _⟩
      rw [load_eq_ok_iff.mpr hg] at hload
      cases hload
  | ok g =>
    have hg := load_eq_ok_iff.mp hload
    have hsolved := snd_solveLogged g bound
    rcases hrun : solveLogged g bound with ⟨told, e | table⟩
    · rw [hrun] at hsolved
      simp only [hrun]
      refine .failure hg.reachable ?_
      rintro g' table ⟨hg', hsolve⟩
      rw [hg.unique hg', hsolve] at hsolved
      cases hsolved
    · rw [hrun] at hsolved
      simp only [hrun]
      exact .report ⟨hg, hsolved.symm⟩

/-- There are facts to report exactly if a procedure is found and nothing waits once the bound is
reached. -/
theorem exists_settles_iff {bound : Int} {g : FlowGraph} :
    (∃ table, Settles reading state bound g table) ↔
      Holds reading state g ∧ 0 < bound ∧ (after analysis g bound.toNat).queue = [] := by
  constructor
  · rintro ⟨table, hg, hsolve⟩
    obtain ⟨hpos, hqueue, _⟩ := (Propagation.solve_eq_ok_iff hg.wellFormed).mp hsolve
    exact ⟨hg, hpos, hqueue⟩
  · rintro ⟨hg, hpos, hqueue⟩
    exact ⟨_, hg, (Propagation.solve_eq_ok_iff hg.wellFormed).mpr ⟨hpos, hqueue, rfl⟩⟩

section Settled

variable {bound : Int} {g : FlowGraph} {table : FactTable Fact}
variable (h : Settles reading state bound g table)

include h

theorem Settles.unique {g' : FlowGraph} {table' : FactTable Fact}
    (h' : Settles reading state bound g' table') : g = g' ∧ table = table' := by
  obtain rfl := h.holds.unique h'.holds
  have hsolved := h.solved
  rw [h'.solved] at hsolved
  exact ⟨rfl, (Except.ok.inj hsolved).symm⟩

/-- Nothing but this procedure is to be reported on. -/
theorem Settles.exists_and_iff {P : FlowGraph → Prop} :
    (∃ g' table', Settles reading state bound g' table' ∧ P g') ↔ P g := by
  constructor
  · rintro ⟨g', table', h', hP⟩
    rw [(h.unique h').1]
    exact hP
  · intro hP
    exact ⟨g, table, h, hP⟩

theorem Settles.nodes_eq : table.map Prod.fst = g.nodes := by
  obtain ⟨_, _, _, htable, _⟩ := Propagation.factsAt_of_solve h.holds.wellFormed h.solved
  exact htable

theorem Settles.labelled_iff :
    (∀ r ∈ (Report.ofTable g table).rows, Report.labelled r = true) ↔
      ∀ n ∈ g.nodes, n.writable = true := by
  rw [Report.labelled_ofTable_iff, h.nodes_eq]

/-- What is reported on a loaded procedure: the entry, the exit and the statements, numbered from
zero. -/
theorem Settles.rows (hall : ∀ n ∈ g.nodes, n.writable = true) :
    ∃ codes, g.nodes = .entry :: .exit :: Loading.numbered codes ∧
      (Report.ofTable g table).rows.map (fun r => (r.index, r.label)) =
        (-1, some "[entry]") :: (-1, some "[exit]") ::
          codes.mapIdx fun i c => ((i : Int), some c.text) := by
  obtain ⟨form, hform⟩ := h.holds.exists_form
  obtain ⟨name, items, codes, _, _, _, _, _, hnodes⟩ := Loading.shape_of_procedure hform
  have hcodes : ∀ c ∈ codes, c.writable = true := by
    intro c hc
    obtain ⟨i, hi, rfl⟩ := List.getElem_of_mem hc
    refine hall (.stmt i i codes[i]) ?_
    rw [hnodes]
    refine List.mem_cons_of_mem _ (List.mem_cons_of_mem _ ?_)
    exact List.mem_mapIdx.mpr ⟨i, hi, rfl⟩
  refine ⟨codes, hnodes, ?_⟩
  rw [Report.rows_ofTable, h.nodes_eq, hnodes, Report.rows_numbered hcodes]

end Settled

/-! ## Answers -/

/-- The ending and the standard output that an analysis comes to. -/
def answer (format : Format) : Except Stop Report → Ending × String
  | .ok r =>
    (if (render r format).whole then .exit 0 else .crash .unwritable, (render r format).text)
  | .error (.failure _) => (.exit 2, "")
  | .error (.crash c) => (.crash c, "")

/-- The ending and the standard output depend on the file, the format and the bound alone. -/
theorem perform_eq_answer (reading : Reading) (state : PathState) (o : Options) :
    ((perform reading o state).ending, (perform reading o state).stdout) =
      answer o.format (analyse reading (normalPath o.file) o.bound state).2 := by
  unfold perform
  rcases analyse reading (normalPath o.file) o.bound state with ⟨told, (f | c) | r⟩
  · rfl
  · rfl
  · rfl

theorem run_eq_perform {words : List String} {o : Options} (h : request words = .ok (.analyse o))
    (look : String → PathState) :
    run reading look words = perform reading o (look (normalPath o.file)) := by
  simp only [run, plan, h]

/-- A text shows a report in a format. -/
def Shows : Format → Report → String → Prop
  | .text, r, text => Report.IsTable r.procedure r.rows text
  | .json, r, text => Report.IsJson r.procedure r.rows text

/-- A whole report is shown. -/
theorem shows_render {r : Report} (h : ∀ row ∈ r.rows, Report.labelled row = true)
    (format : Format) : (render r format).whole = true ∧ Shows format r (render r format).text := by
  cases format with
  | text =>
    have htable := Report.isTable_table r
    rw [List.takeWhile_eq_self_iff.mpr h] at htable
    exact ⟨(Report.whole_table_iff r).mpr h, htable⟩
  | json => exact ⟨(Report.isJson_json h).2, (Report.isJson_json h).1⟩

/-- A text shows the start of a report: the first rows in a table, and nothing in JSON. -/
def ShowsStart : Format → Report → String → Prop
  | .text, r, text => Report.IsTable r.procedure (r.rows.takeWhile Report.labelled) text
  | .json, _, text => text = ""

/-- The start of a report that is not whole is shown. -/
theorem showsStart_render {r : Report} {row : Row} (hrow : row ∈ r.rows)
    (h : Report.labelled row = false) (format : Format) :
    (render r format).whole = false ∧ ShowsStart format r (render r format).text := by
  cases format with
  | text =>
    have hwhole : r.table.whole = false := by
      rw [← Bool.not_eq_true, Report.whole_table_iff]
      intro hall
      rw [hall row hrow] at h
      cases h
    exact ⟨hwhole, Report.isTable_table r⟩
  | json =>
    rw [render, Report.json_eq_of_unlabelled hrow h]
    exact ⟨rfl, rfl⟩

/-! ## Endings -/

/-- The ways that a run can end, with what it leaves on the standard output. -/
inductive Ended (reading : Reading) (path : String) (state : PathState) (bound : Int)
    (format : Format) : Ending → String → Prop where
  | unreachable {e : SystemError} :
    state = .unreachable e →
      Ended reading path state bound format (.crash (.unreachable path e)) ""
  | failure :
    (∀ e, state ≠ .unreachable e) → (∀ g table, ¬ Settles reading state bound g table) →
      Ended reading path state bound format (.exit 2) ""
  | report {g : FlowGraph} {table : FactTable Fact} {text : String} :
    Settles reading state bound g table → (∀ n ∈ g.nodes, n.writable = true) →
      Shows format (.ofTable g table) text →
      Ended reading path state bound format (.exit 0) text
  | unwritable {g : FlowGraph} {table : FactTable Fact} {text : String} :
    Settles reading state bound g table → (∃ n ∈ g.nodes, n.writable = false) →
      ShowsStart format (.ofTable g table) text →
      Ended reading path state bound format (.crash .unwritable) text

variable {path : String}

theorem ended_answer {bound : Int} {r : Except Stop Report} (h : Course reading path state bound r)
    (format : Format) :
    Ended reading path state bound format (answer format r).1 (answer format r).2 := by
  cases h with
  | unreachable hstate => exact .unreachable hstate
  | failure hstate hnone => exact .failure hstate hnone
  | @report g table hsettles =>
    by_cases hall : ∀ n ∈ g.nodes, n.writable = true
    · obtain ⟨hwhole, hshows⟩ := shows_render (hsettles.labelled_iff.mpr hall) format
      rw [answer, if_pos hwhole]
      exact .report hsettles hall hshows
    · have hrow : ¬ ∀ r ∈ (Report.ofTable g table).rows, Report.labelled r = true :=
        mt hsettles.labelled_iff.mp hall
      push Not at hrow hall
      obtain ⟨row, hrow, hlabel⟩ := hrow
      obtain ⟨hwhole, hstart⟩ :=
        showsStart_render hrow (Bool.eq_false_iff.mpr hlabel) format
      obtain ⟨n, hn, hlong⟩ := hall
      rw [answer, hwhole]
      exact .unwritable hsettles ⟨n, hn, Bool.eq_false_iff.mpr hlong⟩ hstart

section Endings

variable {bound : Int} {format : Format} {ending : Ending} {out : String}
variable (h : Ended reading path state bound format ending out)

include h

theorem Ended.cases : (∃ e, ending = .crash (.unreachable path e)) ∨ ending = .crash .unwritable ∨
    ending = .exit 0 ∨ ending = .exit 2 := by
  cases h with
  | unreachable => exact Or.inl ⟨_, rfl⟩
  | failure => exact Or.inr (Or.inr (Or.inr rfl))
  | report => exact Or.inr (Or.inr (Or.inl rfl))
  | unwritable => exact Or.inr (Or.inl rfl)

theorem Ended.unreachable_iff (e : SystemError) :
    ending = .crash (.unreachable path e) ↔ state = .unreachable e := by
  cases h with
  | @unreachable e' hstate =>
    rw [hstate]
    simp only [Ending.crash.injEq, Crash.unreachable.injEq, PathState.unreachable.injEq, true_and]
  | failure hstate => exact iff_of_false nofun (hstate e)
  | report hsettles => exact iff_of_false nofun (hsettles.holds.reachable e)
  | unwritable hsettles => exact iff_of_false nofun (hsettles.holds.reachable e)

theorem Ended.unwritable_iff :
    ending = .crash .unwritable ↔
      ∃ g table, Settles reading state bound g table ∧ ∃ n ∈ g.nodes, n.writable = false := by
  cases h with
  | unreachable hstate =>
    refine iff_of_false nofun ?_
    rintro ⟨g, table, hsettles, _⟩
    exact hsettles.holds.reachable _ hstate
  | failure _ hnone =>
    refine iff_of_false nofun ?_
    rintro ⟨g, table, hsettles, _⟩
    exact hnone g table hsettles
  | report hsettles hall =>
    rw [hsettles.exists_and_iff]
    refine iff_of_false nofun ?_
    rintro ⟨n, hn, hlong⟩
    rw [hall n hn] at hlong
    cases hlong
  | unwritable hsettles hlong =>
    rw [hsettles.exists_and_iff]
    exact iff_of_true rfl hlong

theorem Ended.exit_zero_iff :
    ending = .exit 0 ↔
      ∃ g table, Settles reading state bound g table ∧ ∀ n ∈ g.nodes, n.writable = true := by
  cases h with
  | unreachable hstate =>
    refine iff_of_false nofun ?_
    rintro ⟨g, table, hsettles, _⟩
    exact hsettles.holds.reachable _ hstate
  | failure _ hnone =>
    refine iff_of_false nofun ?_
    rintro ⟨g, table, hsettles, _⟩
    exact hnone g table hsettles
  | report hsettles hall =>
    rw [hsettles.exists_and_iff]
    exact iff_of_true rfl hall
  | unwritable hsettles hlong =>
    rw [hsettles.exists_and_iff]
    refine iff_of_false nofun ?_
    intro hall
    obtain ⟨n, hn, hlong⟩ := hlong
    rw [hall n hn] at hlong
    cases hlong

theorem Ended.shows (hzero : ending = .exit 0) :
    ∃ g table, Settles reading state bound g table ∧ (∀ n ∈ g.nodes, n.writable = true) ∧
      Shows format (.ofTable g table) out := by
  cases h with
  | unreachable => cases hzero
  | failure => cases hzero
  | report hsettles hall hshows => exact ⟨_, _, hsettles, hall, hshows⟩
  | unwritable => cases hzero

theorem Ended.silent
    (hnone : ending = .exit 2 ∨ ∃ e, ending = .crash (.unreachable path e)) : out = "" := by
  cases h with
  | unreachable => rfl
  | failure => rfl
  | report =>
    rcases hnone with hcode | ⟨e, he⟩
    · cases hcode
    · cases he
  | unwritable =>
    rcases hnone with hcode | ⟨e, he⟩
    · cases hcode
    · cases he

theorem Ended.shows_start (hcrash : ending = .crash .unwritable) :
    ∃ g table, Settles reading state bound g table ∧ ShowsStart format (.ofTable g table) out := by
  cases h with
  | unreachable => cases hcrash
  | failure => cases hcrash
  | report => cases hcrash
  | unwritable hsettles _ hstart => exact ⟨_, _, hsettles, hstart⟩

end Endings

theorem ended_run {words : List String} {o : Options} {bound : Int}
    (hwords : request words = .ok (.analyse o)) (hbound : o.bound = some bound)
    (reading : Reading) (look : String → PathState) :
    Ended reading (normalPath o.file) (look (normalPath o.file)) bound o.format
      (run reading look words).ending (run reading look words).stdout := by
  let state := look (normalPath o.file)
  have hcourse := course_analyse reading (normalPath o.file) state bound
  have hended := ended_answer hcourse o.format
  rw [← hbound, ← perform_eq_answer] at hended
  rw [run_eq_perform hwords look]
  exact hended

/-! ## Command lines -/

/-- How a command line with these options ends and what it leaves on the standard output. -/
structure AllOrNothing (reading : Reading) (look : String → PathState) (words : List String)
    (o : Options) (bound : Int) : Prop where
  /-- It ends with code 0 or 2, or it is broken off in one of two ways. -/
  ends : (∃ e, (run reading look words).ending = .crash (.unreachable (normalPath o.file) e)) ∨
    (run reading look words).ending = .crash .unwritable ∨
      (run reading look words).ending = .exit 0 ∨ (run reading look words).ending = .exit 2
  /-- One way is that the path cannot be looked up, and says why. -/
  unreachable_iff : ∀ e,
    (run reading look words).ending = .crash (.unreachable (normalPath o.file) e) ↔
      look (normalPath o.file) = .unreachable e
  /-- The other is that all goes well up to the report and a number in that cannot be written. -/
  unwritable_iff : (run reading look words).ending = .crash .unwritable ↔
    ∃ g, Holds reading (look (normalPath o.file)) g ∧ 0 < bound ∧
      (after analysis g bound.toNat).queue = [] ∧ ∃ n ∈ g.nodes, n.writable = false
  /-- It succeeds exactly if there is a file, its bytes are text, the text is a procedure, no node
  waits after as many visits as the positive bound allows, and all can be written. -/
  succeeds_iff : (run reading look words).ending = .exit 0 ↔
    ∃ bytes chars g, look (normalPath o.file) = .file bytes ∧
      Text.Utf8.decode bytes = .ok chars ∧
      Loading.source reading (Text.unifyNewlines chars) = .ok g ∧ 0 < bound ∧
      (after analysis g bound.toNat).queue = [] ∧ ∀ n ∈ g.nodes, n.writable = true
  /-- On success the standard output shows one report, in the format that is asked for, with a row
  for the entry, the exit and each statement in their order. -/
  reports : (run reading look words).ending = .exit 0 →
    ∃ g table codes, Settles reading (look (normalPath o.file)) bound g table ∧
      g.nodes = .entry :: .exit :: Loading.numbered codes ∧ table.map Prod.fst = g.nodes ∧
      (Report.ofTable g table).rows.map (fun r => (r.index, r.label)) =
        (-1, some "[entry]") :: (-1, some "[exit]") ::
          codes.mapIdx (fun i c => ((i : Int), some c.text)) ∧
      Shows o.format (.ofTable g table) (run reading look words).stdout
  /-- On failure it is empty, and so it is if the path cannot be looked up. -/
  silent : ((run reading look words).ending = .exit 2 ∨
      ∃ e, (run reading look words).ending = .crash (.unreachable (normalPath o.file) e)) →
    (run reading look words).stdout = ""
  /-- If a number cannot be written, it holds what comes before that number. -/
  shows_start : (run reading look words).ending = .crash .unwritable →
    ∃ g table, Settles reading (look (normalPath o.file)) bound g table ∧
      ShowsStart o.format (.ofTable g table) (run reading look words).stdout
  /-- Another command line that asks for the same file, format and bound does the same. -/
  same_request : ∀ words' o', request words' = .ok (.analyse o') → o'.file = o.file →
    o'.format = o.format → o'.bound = o.bound →
      (run reading look words').ending = (run reading look words).ending ∧
        (run reading look words').stdout = (run reading look words).stdout
  /-- And so does this one with any number of `-v` in front. -/
  same_verbose : ∀ k,
    (run reading look (List.replicate k "-v" ++ words)).ending = (run reading look words).ending ∧
      (run reading look (List.replicate k "-v" ++ words)).stdout = (run reading look words).stdout

theorem run_congr {words words' : List String} {o o' : Options}
    (hwords : request words = .ok (.analyse o)) (hwords' : request words' = .ok (.analyse o'))
    (hfile : o'.file = o.file) (hformat : o'.format = o.format) (hbound : o'.bound = o.bound)
    (look : String → PathState) :
    (run reading look words').ending = (run reading look words).ending ∧
      (run reading look words').stdout = (run reading look words).stdout := by
  have hsame : ∀ state, answer o'.format (analyse reading (normalPath o'.file) o'.bound state).2 =
      answer o.format (analyse reading (normalPath o.file) o.bound state).2 := by
    intro state
    rw [hfile, hformat, hbound]
  rw [run_eq_perform hwords look, run_eq_perform hwords' look, hfile, ← Prod.mk.injEq,
    perform_eq_answer, perform_eq_answer, hsame]

/-- A command line that asks for an analysis with a bound ends with a whole report and code 0, or
with nothing on the standard output and code 2, unless it is broken off; and the verbosity does not
matter. -/
theorem run_all_or_nothing {words : List String} {o : Options} {bound : Int}
    (hwords : request words = .ok (.analyse o)) (hbound : o.bound = some bound)
    (reading : Reading) (look : String → PathState) :
    AllOrNothing reading look words o bound := by
  have hended := ended_run hwords hbound reading look
  refine ⟨hended.cases, hended.unreachable_iff, ?_, ?_, ?_, hended.silent, hended.shows_start,
    ?_, ?_⟩
  · rw [hended.unwritable_iff]
    refine exists_congr fun g => ?_
    rw [exists_and_right, exists_settles_iff, and_assoc, and_assoc]
  · rw [hended.exit_zero_iff]
    constructor
    · rintro ⟨g, table, hsettles, hall⟩
      obtain ⟨⟨bytes, chars, hfile, hdecode, hsource⟩, hpos, hqueue⟩ :=
        exists_settles_iff.mp ⟨table, hsettles⟩
      exact ⟨bytes, chars, g, hfile, hdecode, hsource, hpos, hqueue, hall⟩
    · rintro ⟨bytes, chars, g, hfile, hdecode, hsource, hpos, hqueue, hall⟩
      have hholds : Holds reading (look (normalPath o.file)) g :=
        ⟨bytes, chars, hfile, hdecode, hsource⟩
      obtain ⟨table, hsettles⟩ := exists_settles_iff.mpr ⟨hholds, hpos, hqueue⟩
      exact ⟨g, table, hsettles, hall⟩
  · intro hzero
    obtain ⟨g, table, hsettles, hall, hshows⟩ := hended.shows hzero
    obtain ⟨codes, hnodes, hrows⟩ := hsettles.rows hall
    exact ⟨g, table, codes, hsettles, hnodes, hsettles.nodes_eq, hrows, hshows⟩
  · intro words' o' hwords' hfile hformat hbound'
    exact run_congr hwords hwords' hfile hformat hbound' look
  · intro k
    exact run_congr hwords (request_replicate_verbose hwords k) rfl rfl rfl look

/-! A file with a procedure that returns a constant, and a command line that asks for it. -/

namespace Plain

def words : List String := ["p", "-v"]

def options : Options where
  file := "p"
  format := .text
  bound := some 10000
  verbosity := 1

theorem request_words : request words = .ok (.analyse options) := rfl

def contents : String :=
  "(procedure f (vars (x int)) (node 7 (assign x 5) 8) (node 8 (return x)))"

/-- The only file holds the procedure. -/
def disk (path : String) : PathState :=
  if path = "p" then .file (contents.toList.map fun c => c.toNat.toUInt8) else .missing

theorem ending_eq : (run Loading.symbolic disk words).ending = .exit 0 := by
  decide +kernel

/-- The report on the procedure. -/
def report : String :=
  "procedure f\n" ++
    "  -1  [entry]                        IN \x7b\x7d  OUT \x7b\x7d\n" ++
    "  -1  [exit]                         IN \x7bx=#5\x7d  OUT \x7bx=#5\x7d\n" ++
    "   0  x = 5                          IN \x7b\x7d  OUT \x7bx=#5\x7d\n" ++
    "   1  return x                       IN \x7bx=#5\x7d  OUT \x7bx=#5\x7d\n"

theorem stdout_eq : (run Loading.symbolic disk words).stdout = report := by
  decide +kernel

end Plain

open Plain in
theorem run_all_or_nothing_plain :
    request words = .ok (.analyse options) ∧ options.bound = some 10000 ∧
      (run Loading.symbolic disk words).ending = .exit 0 ∧
      (∃ g table, Settles Loading.symbolic (disk "p") 10000 g table ∧
        Shows .text (.ofTable g table) report) ∧
      (run Loading.symbolic disk ("-v" :: words)).stdout = report ∧
      (run Loading.symbolic (fun _ => .directory) words).ending = .exit 2 ∧
      (run Loading.symbolic (fun _ => .directory) words).stdout = "" := by
  have hfound := run_all_or_nothing request_words rfl Loading.symbolic disk
  have hother := run_all_or_nothing request_words rfl Loading.symbolic fun _ => .directory
  obtain ⟨g, table, _, hsettles, _, _, _, hshows⟩ := hfound.reports ending_eq
  rw [stdout_eq] at hshows
  have hcode : (run Loading.symbolic (fun _ => .directory) words).ending = .exit 2 := by
    decide +kernel
  exact ⟨request_words, rfl, ending_eq, ⟨g, table, hsettles, hshows⟩,
    (hfound.same_verbose 1).2.trans stdout_eq, hcode, hother.silent (Or.inl hcode)⟩

/-! ## Names as they are -/

theorem sortWord_plain {s : String} {c : Char} {cs : List Char} (h : s.toList = c :: cs)
    (hc : c ≠ '-') : sortWord s = .ok (.plain s) := by
  unfold sortWord
  rw [h]
  split
  next heq => exact absurd (List.cons.inj heq).1 hc
  next => rfl

/-- A single word that is no option asks for an analysis of the file of that name. -/
theorem request_singleton {s : String} {c : Char} {cs : List Char} (h : s.toList = c :: cs)
    (hc : c ≠ '-') :
    request [s] = .ok (.analyse
      { file := s, format := .text, bound := some defaultBound, verbosity := 0 }) := by
  have hdashes : s ≠ "--" := by
    rintro rfl
    exact hc (List.cons.inj h).1.symm
  simp only [request, sortWords, if_neg hdashes, sortWord_plain h hc]
  rfl

theorem pieces_of_not_mem {cs : List Char} (h : '/' ∉ cs) : pieces cs = [cs] := by
  induction cs with
  | nil => rfl
  | cons c cs ih =>
    rw [List.mem_cons, not_or] at h
    unfold pieces
    split
    next heq => cases heq
    next heq => exact absurd (List.cons.inj heq).1.symm h.1
    next heq =>
      cases heq
      rw [ih h.2]

theorem normalPath_of_not_mem {s : String} {c : Char} {cs : List Char} (h : s.toList = c :: cs)
    (hslash : '/' ∉ c :: cs) (hdot : c ≠ '.') : normalPath s = s := by
  have hc : (c == '/') = false := by
    rw [beq_eq_false_iff_ne]
    rintro rfl
    exact hslash List.mem_cons_self
  have hroot : root s.toList = "" := by
    rw [root, h, List.takeWhile_cons, hc]
    rfl
  have hkept : (pieces s.toList).filter (fun p => p ≠ [] ∧ p ≠ ['.']) = [s.toList] := by
    rw [h, pieces_of_not_mem hslash]
    refine List.filter_cons_of_pos ?_
    simp [hdot]
  have hempty : s.isEmpty = false := by
    rw [String.isEmpty_eq_false_iff]
    rintro rfl
    cases h
  unfold normalPath
  rw [hkept, hroot]
  simp [hempty]

/-! Two runs that are broken off. -/

namespace Overlong

/-- A name of three hundred characters. -/
def name : String := String.ofList (List.replicate 300 'a')

def options : Options where
  file := name
  format := .text
  bound := some 10000
  verbosity := 0

theorem toList_name : name.toList = 'a' :: List.replicate 299 'a' :=
  String.toList_ofList

theorem request_name : request [name] = .ok (.analyse options) :=
  request_singleton toList_name (by decide)

def tooLong : SystemError where
  number := 36
  reason := "File name too long"

/-- A system without files that refuses to look up long names. -/
def disk (path : String) : PathState :=
  if path.utf8ByteSize ≤ 255 then .missing else .unreachable tooLong

/-- A reading that finds the same procedure in every text: it assigns a number of 5001 digits. -/
def uniform : Reading := fun _ =>
  .ok (.list [.symbol "procedure", .symbol "f",
    .list [.symbol "vars", .list [.symbol "x", .symbol "int"]],
    .list [.symbol "node", .integer 0,
      .list [.symbol "assign", .symbol "x", .integer (Nat.pow 10 5000 : Nat)]]])

/-- The beginning of the report on that procedure. -/
def beginning : String :=
  "procedure f\n" ++
    "  -1  [entry]                        IN \x7b\x7d  OUT \x7b\x7d\n" ++
    "  -1  [exit]                         IN \x7bx=#0\x7d  OUT \x7bx=#0\x7d\n"

end Overlong

open Overlong in
/-- A name that is too long to be looked up breaks a run off, and so does a number that is too long
to be written, when half of the report is out. -/
theorem overlong_name_breaks_off :
    request [name] = .ok (.analyse options) ∧
      disk (normalPath options.file) = .unreachable tooLong ∧
      (run Loading.symbolic disk [name]).ending = .crash (.unreachable name tooLong) ∧
      (run uniform (fun _ => .file []) ["p"]).ending = .crash .unwritable ∧
      (run uniform (fun _ => .file []) ["p"]).stdout = beginning := by
  have hpath : normalPath name = name := normalPath_of_not_mem toList_name (by decide) (by decide)
  have hdisk : disk name = .unreachable tooLong := by decide +kernel
  refine ⟨request_name, ?_, ?_, by decide +kernel, by decide +kernel⟩
  · exact (congrArg disk hpath).trans hdisk
  · rw [run_eq_perform request_name]
    change (perform Loading.symbolic options (disk (normalPath name))).ending = _
    rw [hpath, hdisk]
    exact congrArg (fun path => Ending.crash (.unreachable path tooLong)) hpath

end CommandLine

end ConstantFlow

import ConstantFlow.Propagation
import ConstantFlow.Report.Json

/-!
# Reports

The facts of a procedure, one row for each node in the order of the graph, as a table or as JSON.
A table is put out row by row, JSON all at once, and neither goes beyond a row with a number that
cannot be written.
-/

namespace ConstantFlow

/-- What is reported about one node. There is no label if a number in it cannot be written. -/
structure Row where
  index : Int
  label : Option String
  input : Fact
  output : Fact
deriving DecidableEq, Repr

/-- What is reported about a procedure. -/
structure Report where
  procedure : String
  rows : List Row
deriving DecidableEq, Repr

namespace Report

/-- How a node is called in a report. -/
def label : Node → Option String
  | .entry => some "[entry]"
  | .exit => some "[exit]"
  | n => if n.writable then some n.text else none

/-- The report on solved facts. -/
def ofTable (g : FlowGraph) (table : FactTable Fact) : Report where
  procedure := g.name
  rows := table.map fun (n, facts) =>
    { index := n.index, label := label n, input := facts.input, output := facts.output }

/-- What has been put out of a report, and whether that is all of it. -/
structure Output where
  text : String
  whole : Bool
deriving DecidableEq, Repr

/-! ## As a table -/

/-- A text filled up with blanks in front. -/
def alignRight (width : Nat) (s : String) : String :=
  String.ofList (List.replicate (width - s.length) ' ') ++ s

/-- A text filled up with blanks behind. -/
def alignLeft (width : Nat) (s : String) : String :=
  s ++ String.ofList (List.replicate (width - s.length) ' ')

/-- The line of a row under the given label. -/
def line (r : Row) (label : String) : String :=
  alignRight 4 (toString r.index) ++ "  " ++ alignLeft 30 label ++ " IN " ++ r.input.text
    ++ "  OUT " ++ r.output.text ++ "\n"

/-- One line below the other, up to the first row without a label. -/
def lines : List Row → Output
  | [] => { text := "", whole := true }
  | r :: rows =>
    match r.label with
    | none => { text := "", whole := false }
    | some label =>
      let rest := lines rows
      { rest with text := line r label ++ rest.text }

def table (r : Report) : Output :=
  let body := lines r.rows
  { body with text := "procedure " ++ r.procedure ++ "\n" ++ body.text }

/-! ## As JSON -/

/-- A fact as a map from names to texts of values, by name. Of several variables of one name the
last one counts. -/
def dictionary (f : Fact) : List (String × String) :=
  Entries.ofList (f.byName.map fun e => (e.1.name, e.2.text))

def factJson (f : Fact) : Json :=
  .object ((dictionary f).map fun e => (e.1, .text e.2))

def rowJson (r : Row) (label : String) : Json :=
  .object [("index", .int r.index), ("stmt", .text label), ("in", factJson r.input),
    ("out", factJson r.output)]

def reportJson (procedure : String) (rows : List Json) : Json :=
  .object [("procedure", .text procedure), ("nodes", .array rows)]

def json (r : Report) : Output :=
  match r.rows.mapM fun row => row.label.map (rowJson row) with
  | none => { text := "", whole := false }
  | some rows => { text := Json.render 0 (reportJson r.procedure rows) ++ "\n", whole := true }

end Report

end ConstantFlow

import ConstantFlow.CommandLine.Log
import ConstantFlow.CommandLine.Options
import ConstantFlow.CommandLine.Path
import ConstantFlow.CommandLine.Run
import ConstantFlow.Dataflow.Analysis
import ConstantFlow.Dataflow.Worklist
import ConstantFlow.Entries
import ConstantFlow.Evaluation
import ConstantFlow.Expression
import ConstantFlow.Fact
import ConstantFlow.FactStore
import ConstantFlow.FlowGraph.Adjacency
import ConstantFlow.FlowGraph.Basic
import ConstantFlow.FlowGraph.Order
import ConstantFlow.Form.Basic
import ConstantFlow.Form.Display
import ConstantFlow.Form.Reader
import ConstantFlow.Form.Token
import ConstantFlow.Loading.Code
import ConstantFlow.Loading.Error
import ConstantFlow.Loading.Procedure
import ConstantFlow.Main
import ConstantFlow.Number.Binary64
import ConstantFlow.Number.Numeral
import ConstantFlow.Number.Shortest
import ConstantFlow.Operator
import ConstantFlow.Proofs.CommandLine.Outcome
import ConstantFlow.Proofs.CommandLine.Verbosity
import ConstantFlow.Proofs.Dataflow.Bound
import ConstantFlow.Proofs.Dataflow.History
import ConstantFlow.Proofs.Dataflow.Notification
import ConstantFlow.Proofs.Dataflow.OnePass
import ConstantFlow.Proofs.Dataflow.Run
import ConstantFlow.Proofs.Evaluation
import ConstantFlow.Proofs.Expression
import ConstantFlow.Proofs.Fact
import ConstantFlow.Proofs.FactStore
import ConstantFlow.Proofs.FlowGraph.Adjacency
import ConstantFlow.Proofs.FlowGraph.Built
import ConstantFlow.Proofs.FlowGraph.Cycle
import ConstantFlow.Proofs.FlowGraph.DepthFirst
import ConstantFlow.Proofs.FlowGraph.Edges
import ConstantFlow.Proofs.FlowGraph.Insertion
import ConstantFlow.Proofs.FlowGraph.Order
import ConstantFlow.Proofs.FlowGraph.Topological
import ConstantFlow.Proofs.FlowGraph.Walk
import ConstantFlow.Proofs.Loading.Acceptance
import ConstantFlow.Proofs.Loading.Fault
import ConstantFlow.Proofs.Loading.Grammar
import ConstantFlow.Proofs.Loading.Graph
import ConstantFlow.Proofs.Loading.Rearrangement
import ConstantFlow.Proofs.Loading.Shape
import ConstantFlow.Proofs.Loading.Wiring
import ConstantFlow.Proofs.Loading.Writing
import ConstantFlow.Proofs.Merging
import ConstantFlow.Proofs.Propagation.Acyclic
import ConstantFlow.Proofs.Propagation.Cause
import ConstantFlow.Proofs.Propagation.Checked
import ConstantFlow.Proofs.Propagation.Climb
import ConstantFlow.Proofs.Propagation.Convergence
import ConstantFlow.Proofs.Propagation.Fixpoint
import ConstantFlow.Proofs.Propagation.Least
import ConstantFlow.Proofs.Propagation.Merge
import ConstantFlow.Proofs.Propagation.Monotone
import ConstantFlow.Proofs.Propagation.Settling
import ConstantFlow.Proofs.Propagation.Soundness
import ConstantFlow.Proofs.Propagation.Stability
import ConstantFlow.Proofs.Propagation.Transfer
import ConstantFlow.Proofs.Propagation.Untracked
import ConstantFlow.Proofs.Report.Dictionary
import ConstantFlow.Proofs.Report.Layout
import ConstantFlow.Proofs.Report.Reading
import ConstantFlow.Proofs.Semantics.Execution
import ConstantFlow.Proofs.Semantics.Integers
import ConstantFlow.Proofs.Semantics.Machine
import ConstantFlow.Proofs.Semantics.Wrapping
import ConstantFlow.Proofs.Value
import ConstantFlow.Proofs.Word
import ConstantFlow.Propagation
import ConstantFlow.Report.Basic
import ConstantFlow.Report.Json
import ConstantFlow.Statement
import ConstantFlow.Text.Blank
import ConstantFlow.Text.Digit
import ConstantFlow.Text.Hex
import ConstantFlow.Text.Newline
import ConstantFlow.Text.Printable
import ConstantFlow.Text.Quoted
import ConstantFlow.Text.Unassigned
import ConstantFlow.Text.Utf8
import ConstantFlow.Value
import ConstantFlow.Variable
import ConstantFlow.Word

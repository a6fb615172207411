import ConstantFlow.CommandLine.Log
import ConstantFlow.CommandLine.Options
import ConstantFlow.CommandLine.Path
import ConstantFlow.Loading.Procedure
import ConstantFlow.Report.Basic

/-!
# Running a command line

What the program answers: how it ends, what goes to the standard output and what goes to the
standard error. Failures that are expected are told in the log and have an exit code; others break
the program off.
-/

namespace ConstantFlow.CommandLine

/-- The version of the program. -/
def version : String := "0.1.0"

/-- How the program is called. -/
def usage : String :=
  "usage: constprop [-h] [--format \x7btext,json\x7d] [--max-iterations N] [-v]\n"
    ++ "                 [--version]\n"
    ++ "                 file\n"

/-- What the program does and which options it takes. -/
def helpText : String :=
  usage
    ++ "\nRun constant propagation over a procedure CFG.\n"
    ++ "\npositional arguments:\n"
    ++ "  file                  procedure in S-expression form\n"
    ++ "\noptions:\n"
    ++ "  -h, --help            show this help message and exit\n"
    ++ "  --format \x7btext,json\x7d  output format (default: text)\n"
    ++ "  --max-iterations N    bound on solver node visits (default: 10000)\n"
    ++ "  -v, --verbose         increase log verbosity (repeatable)\n"
    ++ "  --version             show program's version number and exit\n"

/-! ## What can go wrong -/

/-- An error of the system, by its number and its wording. -/
structure SystemError where
  number : Nat
  reason : String
deriving DecidableEq, Repr

namespace SystemError

/-- The wording of an error at a path. -/
def message (e : SystemError) (path : String) : String :=
  "[Errno " ++ toString e.number ++ "] " ++ e.reason ++ ": " ++ Text.quoted path

/-- A directory is read as if it were a file. -/
def isDirectory : SystemError where
  number := 21
  reason := "Is a directory"

end SystemError

/-- What is found at a path. -/
inductive PathState where
  | missing
  | directory
  | file (bytes : List UInt8)
  /-- There is something, but the system does not let it be read. -/
  | unreadable (e : SystemError)
  /-- The system does not tell whether there is anything. -/
  | unreachable (e : SystemError)
deriving DecidableEq, Repr

/-- Why a file gives no report. -/
inductive Failure where
  | notFound (path : String)
  | unreadable (path : String) (e : SystemError)
  | unloadable (path : String) (e : Loading.FileError)
  | unsolved (path : String) (e : SolveError)
deriving DecidableEq, Repr

/-- The wording of a failure. -/
def Failure.message : Failure → String
  | .notFound path => "file not found: " ++ path
  | .unreadable path e => path ++ ": " ++ e.message path
  | .unloadable path e => path ++ ": " ++ e.message
  | .unsolved path e => path ++ ": " ++ e.message

/-- An error that breaks the program off. -/
inductive Crash where
  | unreachable (path : String) (e : SystemError)
  /-- There is no bound to hold the visits against. -/
  | noBound
  /-- A number that is to be reported cannot be written. -/
  | unwritable
deriving DecidableEq, Repr

/-- The wording of a crash. -/
def Crash.message : Crash → String
  | .unreachable path e => e.message path
  | .noBound => "'<=' not supported between instances of 'list' and 'int'"
  | .unwritable => Numeral.tooLong

/-- Why there is no report. -/
inductive Stop where
  | failure (f : Failure)
  | crash (c : Crash)
deriving DecidableEq, Repr

/-- How a run ends. -/
inductive Ending where
  | exit (code : Nat)
  | crash (c : Crash)
deriving DecidableEq, Repr

/-- What a run leaves behind. -/
structure Outcome where
  ending : Ending
  stdout : String
  stderr : String
deriving DecidableEq, Repr

/-! ## What is told on the way -/

def loadedLine (g : FlowGraph) : LogLine where
  level := .debug
  origin := "constprop.sexp_reader"
  message := "Loaded " ++ g.text

def solvingLine (g : FlowGraph) : LogLine where
  level := .info
  origin := "constprop.solver"
  message := "Solving " ++ g.text ++ " with ConstantPropagation"

/-- The lines of one visit: one for each node that it queues. -/
def visitLines (v : Worklist.Visit Fact) : List LogLine :=
  v.queued.map fun n =>
    { level := .debug, origin := "constprop.solver",
      message := "OUT of " ++ v.node.text ++ " changed; enqueue " ++ n.text }

def fixpointLine (g : FlowGraph) (visits : Nat) : LogLine where
  level := .info
  origin := "constprop.solver"
  message := "Fixpoint for " ++ g.name ++ " reached after " ++ toString visits ++ " node visit(s)"

def failureLine (f : Failure) : LogLine where
  level := .error
  origin := "constprop"
  message := f.message

/-! ## Analysing a file -/

/-- Solves a loaded graph: the lines told, and the facts of every node. -/
def solveLogged (g : FlowGraph) (bound : Int) :
    List LogLine × Except SolveError (FactTable Fact) :=
  match Propagation.run g bound with
  | .error e => ([], .error e)
  | .ok run =>
    let told := solvingLine g :: run.visits.flatMap visitLines
    match run.outcome with
    | .ok table => (told ++ [fixpointLine g run.visits.length], .ok table)
    | .error e => (told, .error e)

/-- Loads what is found at a path. -/
def load (reading : Loading.Reading) (path : String) : PathState → Except Stop FlowGraph
  | .missing => .error (.failure (.notFound path))
  | .directory => .error (.failure (.unreadable path .isDirectory))
  | .file bytes => (Loading.file reading bytes).mapError fun e => .failure (.unloadable path e)
  | .unreadable e => .error (.failure (.unreadable path e))
  | .unreachable e => .error (.crash (.unreachable path e))

/-- Analyses what is found at a path: the lines told, and the report. The bound is looked at only
when the graph is there. -/
def analyse (reading : Loading.Reading) (path : String) (bound : Option Int) (state : PathState) :
    List LogLine × Except Stop Report :=
  match load reading path state, bound with
  | .error stop, _ => ([], .error stop)
  | .ok g, none => ([loadedLine g], .error (.crash .noBound))
  | .ok g, some bound =>
    match solveLogged g bound with
    | (told, .ok table) => (loadedLine g :: told, .ok (.ofTable g table))
    | (told, .error e) => (loadedLine g :: told, .error (.failure (.unsolved path e)))

/-- What is put out of a report in a format. -/
def render (r : Report) : Format → Report.Output
  | .text => r.table
  | .json => r.json

/-- Answers a request for an analysis, given what is found at the path of its file. -/
def perform (reading : Loading.Reading) (o : Options) (state : PathState) : Outcome :=
  match analyse reading (normalPath o.file) o.bound state with
  | (told, .ok report) =>
    let output := render report o.format
    { ending := if output.whole then .exit 0 else .crash .unwritable
      stdout := output.text
      stderr := LogLine.shown o.verbosity told }
  | (told, .error (.failure f)) =>
    { ending := .exit 2, stdout := "",
      stderr := LogLine.shown o.verbosity (told ++ [failureLine f]) }
  | (told, .error (.crash c)) =>
    { ending := .crash c, stdout := "", stderr := LogLine.shown o.verbosity told }

/-! ## Command lines -/

/-- The answer to a command line that is refused. -/
def refuse (e : UsageError) : Outcome where
  ending := .exit 2
  stdout := ""
  stderr := usage ++ "constprop: error: " ++ e.message ++ "\n"

/-- What a command line comes to before any file is looked at. -/
inductive Plan where
  | answered (o : Outcome)
  | analyse (o : Options)

def plan (words : List String) : Plan :=
  match request words with
  | .error e => .answered (refuse e)
  | .ok .help => .answered { ending := .exit 0, stdout := helpText, stderr := "" }
  | .ok .version =>
    .answered { ending := .exit 0, stdout := "constprop " ++ version ++ "\n", stderr := "" }
  | .ok (.analyse o) => .analyse o

/-- Answers a command line, where `look` tells what is found at a path. -/
def run (reading : Loading.Reading) (look : String → PathState) (words : List String) : Outcome :=
  match plan words with
  | .answered o => o
  | .analyse o => perform reading o (look (normalPath o.file))

end ConstantFlow.CommandLine

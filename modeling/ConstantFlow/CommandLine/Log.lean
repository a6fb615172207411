/-!
# Log lines

What a run tells about its progress. The number of times that verbosity is asked for decides
which lines are shown.
-/

namespace ConstantFlow.CommandLine

/-- How much a line matters, from the least on. -/
inductive Level where
  | debug | info | warning | error
deriving DecidableEq, Repr

namespace Level

def rank : Level → Nat
  | .debug => 0
  | .info => 1
  | .warning => 2
  | .error => 3

/-- The name of a level in five characters. -/
def name : Level → String
  | .debug => "DEBUG"
  | .info => "INFO "
  | .warning => "WARNI"
  | .error => "ERROR"

/-- The least level that is shown. -/
def ofVerbosity : Nat → Level
  | 0 => .warning
  | 1 => .info
  | _ => .debug

end Level

/-- A line of the log: how much it matters, which part of the program tells it, and what. -/
structure LogLine where
  level : Level
  origin : String
  message : String
deriving DecidableEq, Repr

namespace LogLine

def text (l : LogLine) : String :=
  "[" ++ l.level.name ++ "] " ++ l.origin ++ ": " ++ l.message ++ "\n"

/-- The lines that are shown at a verbosity. -/
def shown (verbosity : Nat) (lines : List LogLine) : String :=
  String.join ((lines.filter fun l => (Level.ofVerbosity verbosity).rank ≤ l.level.rank).map text)

end LogLine

end ConstantFlow.CommandLine

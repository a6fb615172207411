import ConstantFlow.Dataflow.Worklist
import ConstantFlow.Number.Numeral
import ConstantFlow.Text.Quoted

/-!
# Command line options

How the words of a command line are understood. Options and the file may stand in any order.
Long options may be cut short as long as one option only fits, values may be attached with an
equals sign, short options may be joined, and two dashes end the options; attached to an option
that takes a value, they leave it without one. All words are sorted into options and others before
any of them takes effect.
-/

namespace ConstantFlow.CommandLine

/-- The forms that a report can take. -/
inductive Format where
  | text | json
deriving DecidableEq, Repr

namespace Format

def name : Format → String
  | .text => "text"
  | .json => "json"

def all : List Format := [.text, .json]

def ofName? (s : String) : Option Format :=
  all.find? (·.name == s)

end Format

/-- The options. -/
inductive Flag where
  | help | format | bound | verbose | version
deriving DecidableEq, Repr

namespace Flag

def all : List Flag := [.help, .format, .bound, .verbose, .version]

/-- The ways to write an option. -/
def spellings : Flag → List String
  | .help => ["-h", "--help"]
  | .format => ["--format"]
  | .bound => ["--max-iterations"]
  | .verbose => ["-v", "--verbose"]
  | .version => ["--version"]

/-- How messages speak of an option. -/
def title (f : Flag) : String :=
  "/".intercalate f.spellings

def takesValue : Flag → Bool
  | .format | .bound => true
  | .help | .verbose | .version => false

/-- Every spelling with its option, in the order of the options. -/
def table : List (String × Flag) :=
  all.flatMap fun f => f.spellings.map (·, f)

/-- The option written `s`. -/
def ofSpelling? (s : String) : Option Flag :=
  table.lookup s

end Flag

/-- Why a command line is refused. -/
inductive UsageError where
  | ambiguous (word : String) (candidates : List String)
  | missingValue (flag : Flag)
  | needlessValue (flag : Flag) (value : String)
  | unknownFormat (value : String)
  | notInteger (value : String)
  | missingFile
  | unrecognized (words : List String)
deriving DecidableEq, Repr

/-- The wording of a usage error. -/
def UsageError.message : UsageError → String
  | .ambiguous word candidates =>
    "ambiguous option: " ++ word ++ " could match " ++ ", ".intercalate candidates
  | .missingValue flag => "argument " ++ flag.title ++ ": expected one argument"
  | .needlessValue flag value =>
    "argument " ++ flag.title ++ ": ignored explicit argument " ++ Text.quoted value
  | .unknownFormat value =>
    "argument " ++ Flag.title .format ++ ": invalid choice: " ++ Text.quoted value
      ++ " (choose from " ++ ", ".intercalate (Format.all.map fun f => Text.quoted f.name) ++ ")"
  | .notInteger value =>
    "argument " ++ Flag.title .bound ++ ": invalid int value: " ++ Text.quoted value
  | .missingFile => "the following arguments are required: file"
  | .unrecognized words => "unrecognized arguments: " ++ " ".intercalate words

/-! ## Sorting the words -/

/-- What a word of the command line is. -/
inductive Argument where
  /-- A file name or a value. -/
  | plain (s : String)
  /-- An option, whether it is written with one dash, and a value attached to it. -/
  | flag (f : Flag) (short : Bool) (value : Option String)
  /-- A word that looks like an option and is none. -/
  | unknown (s : String)
  /-- The two dashes that end the options. -/
  | separator
deriving DecidableEq, Repr

/-- Splits a word at its first equals sign. -/
def splitAssignment (s : String) : Option (String × String) :=
  let cs := s.toList
  match cs.dropWhile (· != '=') with
  | _ :: value => some (String.ofList (cs.takeWhile (· != '=')), String.ofList value)
  | [] => none

def isDigit (c : Char) : Bool :=
  (Text.digit? c).isSome

/-- Whether a word is a negative number, which is a value and no option: a minus sign and digits,
or digits around a decimal point with at least one behind it. A line feed at the end does not
count. -/
def isNegativeNumber (s : String) : Bool :=
  match s.toList with
  | '-' :: cs =>
    let body := if cs.getLast? = some '\n' then cs.dropLast else cs
    let rest := body.dropWhile isDigit
    match rest with
    | [] => !body.isEmpty
    | '.' :: ds => !ds.isEmpty && ds.all isDigit
    | _ => false
  | _ => false

/-- A word with two dashes that spells no option in full: the options that it begins. -/
def sortLong (s : String) : Except UsageError (Option Argument) :=
  let (stem, value) :=
    match splitAssignment s with
    | some (stem, value) => (stem, some value)
    | none => (s, none)
  match Flag.table.filter fun e => stem.isPrefixOf e.1 with
  | [] => .ok none
  | [(_, f)] => .ok (some (.flag f false value))
  | candidates => .error (.ambiguous s (candidates.map Prod.fst))

/-- A word with one dash: a short option with more attached to it. -/
def sortShort (s : String) : Option Argument :=
  (Flag.ofSpelling? (String.ofList (s.toList.take 2))).map fun f =>
    .flag f true (some (String.ofList (s.toList.drop 2)))

/-- What a word is that stands before any separator. -/
def sortWord (s : String) : Except UsageError Argument := do
  match s.toList with
  | '-' :: second :: _ =>
    let short := second ≠ '-'
    match Flag.ofSpelling? s with
    | some f => return .flag f short none
    | none =>
      match splitAssignment s with
      | some (name, value) =>
        match Flag.ofSpelling? name with
        | some f => return .flag f short (some value)
        | none => guess short
      | none => guess short
  | _ => return .plain s
where
  /-- The option that a word that spells none in full may still mean. -/
  guess (short : Bool) : Except UsageError Argument := do
    match ← if short then pure (sortShort s) else sortLong s with
    | some w => return w
    | none => return if isNegativeNumber s ∨ ' ' ∈ s.toList then .plain s else .unknown s

/-- What the words of a command line are. Behind a separator all words are plain. -/
def sortWords : List String → Except UsageError (List Argument)
  | [] => .ok []
  | s :: rest =>
    if s = "--" then .ok (.separator :: rest.map .plain)
    else do
      let w ← sortWord s
      let ws ← sortWords rest
      return w :: ws

/-! ## Acting on the words -/

/-- What an analysis is asked for. -/
structure Options where
  file : String
  format : Format
  /-- The bound on the visits, unless its option was left without a value. -/
  bound : Option Int
  verbosity : Nat
deriving DecidableEq, Repr

/-- What a command line asks for. -/
inductive Request where
  | help
  | version
  | analyse (o : Options)
deriving DecidableEq, Repr

/-- What has been settled by the words so far. -/
structure Progress where
  file : Option String
  format : Format
  bound : Option Int
  verbosity : Nat
  /-- The words that nothing could be done with, in order. -/
  leftover : List String
deriving DecidableEq, Repr

namespace Progress

def start : Progress where
  file := none
  format := .text
  bound := some defaultBound
  verbosity := 0
  leftover := []

/-- Takes a word as the file, if there is none yet. -/
def takePlain (p : Progress) (s : String) : Progress :=
  match p.file with
  | none => { p with file := some s }
  | some _ => { p with leftover := p.leftover ++ [s] }

/-- Gives an option its value. -/
def setValue (p : Progress) (f : Flag) (value : String) : Except UsageError Progress :=
  match f with
  | .format =>
    match Format.ofName? value with
    | some format => .ok { p with format }
    | none => .error (.unknownFormat value)
  | .bound =>
    match Numeral.integer? value.toList with
    | some bound => .ok { p with bound := some bound }
    | none => .error (.notInteger value)
  | .help | .verbose | .version => .error (.needlessValue f value)

/-- Leaves an option without a value: a report in no format is a text. -/
def dropValue (p : Progress) : Flag → Progress
  | .format => { p with format := .text }
  | .bound => { p with bound := none }
  | .help | .verbose | .version => p

/-- Gives an option the value attached to it. Two dashes are no value. -/
def attachValue (p : Progress) (f : Flag) (value : String) : Except UsageError Progress :=
  if value = "--" then .ok (p.dropValue f) else p.setValue f value

/-- Lets options without a value take effect, one after the other; help and version answer the
command line at once. -/
def apply (p : Progress) : List Flag → Progress × Option Request
  | [] => (p, none)
  | .help :: _ => (p, some .help)
  | .version :: _ => (p, some .version)
  | .verbose :: fs => apply { p with verbosity := p.verbosity + 1 } fs
  | .format :: fs | .bound :: fs => apply p fs

/-- The request, once all words have been dealt with. -/
def finish (p : Progress) : Except UsageError Request :=
  match p.file with
  | none => .error .missingFile
  | some file =>
    if p.leftover.isEmpty then
      .ok (.analyse { file, format := p.format, bound := p.bound, verbosity := p.verbosity })
    else .error (.unrecognized p.leftover)

end Progress

/-- The short options joined to `f` in one word. -/
def joined (f : Flag) : List Char → Except UsageError (List Flag)
  | [] => .ok [f]
  | c :: cs =>
    match Flag.ofSpelling? (String.ofList ['-', c]) with
    | some g => do
      let fs ← joined g cs
      return f :: fs
    | none => .error (.needlessValue f (String.ofList (c :: cs)))

/-- The options of a word whose own option takes no value. -/
def expand (f : Flag) (short : Bool) : Option String → Except UsageError (List Flag)
  | none => .ok [f]
  | some value =>
    if short ∧ value ≠ "" then joined f value.toList else .error (.needlessValue f value)

/-- Acts on the words from left to right. -/
def act (p : Progress) : List Argument → Except UsageError Request
  | [] => p.finish
  | .plain s :: .separator :: ws =>
    -- a separator right behind the file belongs to it
    match p.file with
    | none => act { p with file := some s } ws
    | some _ => act { p with leftover := p.leftover ++ [s, "--"] } ws
  | .plain s :: ws => act (p.takePlain s) ws
  | .unknown s :: ws => act { p with leftover := p.leftover ++ [s] } ws
  | .separator :: .plain s :: ws =>
    match p.file with
    | none => act { p with file := some s } ws
    | some _ => act { p with leftover := p.leftover ++ ["--", s] } ws
  | .separator :: ws => act { p with leftover := p.leftover ++ ["--"] } ws
  | .flag f short value :: ws =>
    if f.takesValue then
      match value, ws with
      | some v, ws => do
        let q ← p.attachValue f v
        act q ws
      | none, .plain v :: ws => do
        let q ← p.setValue f v
        act q ws
      | none, _ => .error (.missingValue f)
    else do
      let fs ← expand f short value
      match p.apply fs with
      | (_, some request) => return request
      | (q, none) => act q ws

/-- What a command line asks for. -/
def request (words : List String) : Except UsageError Request := do
  act .start (← sortWords words)

end ConstantFlow.CommandLine

import ConstantFlow.Text.Blank
import ConstantFlow.Text.Quoted

/-!
# Tokens of source texts

A source text is cut into brackets, quotes, texts and atoms in one pass from left to right.
Blanks and comments stand between tokens. A text that breaks off inside a token ends in a token
that says so, after all tokens before it.
-/

namespace ConstantFlow

/-- The two kinds of brackets. -/
inductive Bracket where
  | round | square
deriving DecidableEq, Repr, Inhabited

namespace Bracket

def opening : Bracket → Char
  | .round => '('
  | .square => '['

def closing : Bracket → Char
  | .round => ')'
  | .square => ']'

def ofOpening? (c : Char) : Option Bracket :=
  [round, square].find? (·.opening == c)

def ofClosing? (c : Char) : Option Bracket :=
  [round, square].find? (·.closing == c)

end Bracket

/-- Why a source text is no form. -/
inductive ReadError where
  /-- A closing bracket that closes nothing, with all that stands from there on. -/
  | excessClosing (rest : String)
  /-- A bracket that is not closed, or closed by another one. -/
  | missingClosing (expected : Bracket) (found : Option Bracket)
  /-- A quote with no form behind it. -/
  | danglingQuote (position : Nat)
  | unfinishedText
  | unfinishedEscape
  /-- No form, or more than one. -/
  | notOneForm
deriving DecidableEq, Repr

/-- The wording of a reading error. -/
def ReadError.message : ReadError → String
  | .excessClosing rest =>
    "Too many closing brackets. Expected no character left in the sexp. Got: " ++ Text.quoted rest
  | .missingClosing expected found =>
    "Not enough closing brackets. Expected " ++ Text.quoted (String.singleton expected.closing)
      ++ " to be the last letter in the sexp. Got: "
      ++ (match found with
        | some b => Text.quoted (String.singleton b.closing)
        | none => "None")
  | .danglingQuote position =>
    "No s-exp is found after an apostrophe at position " ++ toString position
  | .unfinishedText => "'NoneType' object has no attribute 'start'"
  | .unfinishedEscape => "string index out of range"
  | .notOneForm => ""

/-- A token; positions count characters from the start of the source. -/
inductive Token where
  | opening (b : Bracket)
  | closing (b : Bracket) (position : Nat)
  | quote (position : Nat)
  | text (s : String)
  | atom (s : String)
  | broken (e : ReadError)
deriving DecidableEq, Repr

namespace Token

/-- What the scanner is in the middle of. Characters read are held last one first. -/
inductive Mode where
  | between
  | comment
  | atom (read : List Char)
  | atomEscape (read : List Char)
  | text (read : List Char)
  | textEscape (read : List Char)

/-- The scanner between two characters. -/
structure Scanner where
  mode : Mode
  position : Nat
  /-- The tokens found so far, the last one first. -/
  found : List Token

def word (read : List Char) : String :=
  String.ofList read.reverse

/-- The characters that a backslash in an atom makes ordinary. -/
def atomEscapes : List Char :=
  ['\\', '\'', '\x60', '"', '(', ')', '[', ']', ' ', ',', '?', ';', '#']

/-- The character that a backslash and `c` stand for in a text. -/
def textEscape? : Char → Option Char
  | '\\' => some '\\'
  | '"' => some '"'
  | 'b' => some '\x08'
  | 'f' => some '\x0c'
  | 'n' => some '\n'
  | 'r' => some '\r'
  | 't' => some '\t'
  | _ => none

/-- Whether `c` ends an atom. -/
def endsAtom (c : Char) : Bool :=
  c == '(' || c == ')' || c == '[' || c == ']' || c == '"' || c == ';' || Text.isBlank c

/-- Reads a character that does not belong to a token begun before. -/
def Scanner.begin (s : Scanner) (c : Char) : Scanner :=
  if Text.isBlank c then s
  else if c = ';' then { s with mode := .comment }
  else if c = '"' then { s with mode := .text [] }
  else if c = '\'' then { s with found := .quote s.position :: s.found }
  else if c = '\\' then { s with mode := .atomEscape [] }
  else
    match Bracket.ofOpening? c, Bracket.ofClosing? c with
    | some b, _ => { s with found := .opening b :: s.found }
    | none, some b => { s with found := .closing b s.position :: s.found }
    | none, none => { s with mode := .atom [c] }

/-- Reads one character. -/
def Scanner.step (s : Scanner) (c : Char) : Scanner :=
  let next :=
    match s.mode with
    | .between => s.begin c
    | .comment => if c = '\n' then { s with mode := .between } else s
    | .atom read =>
      if endsAtom c then
        Scanner.begin { s with mode := .between, found := .atom (word read) :: s.found } c
      else if c = '\\' then { s with mode := .atomEscape read }
      else { s with mode := .atom (c :: read) }
    | .atomEscape read =>
      { s with mode := .atom (if c ∈ atomEscapes then c :: read else c :: '\\' :: read) }
    | .text read =>
      if c = '"' then { s with mode := .between, found := .text (word read) :: s.found }
      else if c = '\\' then { s with mode := .textEscape read }
      else { s with mode := .text (c :: read) }
    | .textEscape read =>
      { s with mode := .text (match textEscape? c with
        | some d => d :: read
        | none => c :: '\\' :: read) }
  { next with position := s.position + 1 }

/-- All tokens, once the source has ended. -/
def Scanner.finish (s : Scanner) : List Token :=
  let last : List Token :=
    match s.mode with
    | .between | .comment => []
    | .atom read => [.atom (word read)]
    | .text _ => [.broken .unfinishedText]
    | .atomEscape _ | .textEscape _ => [.broken .unfinishedEscape]
  s.found.reverse ++ last

/-- The tokens of a source text. -/
def scan (source : List Char) : List Token :=
  (source.foldl Scanner.step { mode := .between, position := 0, found := [] }).finish

end Token

end ConstantFlow

import ConstantFlow.Form.Basic
import ConstantFlow.Form.Token
import ConstantFlow.Number.Numeral

/-!
# Reading forms

Tokens are put together from left to right on a stack of open brackets. A quote applies to the
form that follows it inside the same brackets.
-/

namespace ConstantFlow.Form

/-- The form of an atom: an integer or a binary number if it can be read as one, else a symbol. -/
def ofAtom (s : String) : Form :=
  match Numeral.integer? s.toList with
  | some n => .integer n
  | none =>
    match Numeral.real? s.toList with
    | some x => .real x
    | none => .symbol s

/-- A sequence of forms that is being read. -/
structure Sequence where
  /-- The forms read so far, the last one first. -/
  forms : List Form
  /-- The positions of the quotes before the next form, the last one first. -/
  quotes : List Nat

namespace Sequence

def empty : Sequence where
  forms := []
  quotes := []

/-- Adds a form, with the quotes that wait for it around it. -/
def push (s : Sequence) (f : Form) : Sequence where
  forms := s.quotes.foldl (fun f _ => .quoted f) f :: s.forms
  quotes := []

/-- The forms of a sequence that has ended: no quote may still wait for a form. -/
def finish (s : Sequence) : Except ReadError (List Form) :=
  match s.quotes with
  | position :: _ => .error (.danglingQuote position)
  | [] => .ok s.forms.reverse

end Sequence

/-- The form of a bracket and what it encloses. -/
def enclose : Bracket → List Form → Form
  | .round, items => .list items
  | .square, items => .bracketed items

/-- A reader between two tokens: the sequence that is being read, and the enclosing ones, each
with the bracket that was opened in it. -/
structure Reader where
  current : Sequence
  enclosing : List (Bracket × Sequence)

namespace Reader

/-- Reads a closing bracket. -/
def close (r : Reader) (b : Bracket) (rest : String) : Except ReadError Reader := do
  let forms ← r.current.finish
  match r.enclosing with
  | [] => .error (.excessClosing rest)
  | (opened, outer) :: enclosing =>
    if opened = b then
      return { current := outer.push (enclose opened forms), enclosing }
    else .error (.missingClosing opened (some b))

/-- Reads one token of `source`. -/
def step (source : List Char) (r : Reader) : Token → Except ReadError Reader
  | .opening b => .ok { current := .empty, enclosing := (b, r.current) :: r.enclosing }
  | .closing b position => r.close b (String.ofList (source.drop position))
  | .quote position =>
    .ok { r with current := { r.current with quotes := position :: r.current.quotes } }
  | .text s => .ok { r with current := r.current.push (.text s) }
  | .atom s => .ok { r with current := r.current.push (ofAtom s) }
  | .broken e => .error e

/-- The forms of a source that has ended: every bracket must have been closed. -/
def finish (r : Reader) : Except ReadError (List Form) := do
  let forms ← r.current.finish
  match r.enclosing with
  | [] => return forms
  | (opened, _) :: _ => .error (.missingClosing opened none)

end Reader

/-- The forms of a source text, one after the other. -/
def readAll (source : List Char) : Except ReadError (List Form) := do
  let r ← (Token.scan source).foldlM (Reader.step source) { current := .empty, enclosing := [] }
  r.finish

/-- The one form of a source text. -/
def read (source : List Char) : Except ReadError Form := do
  match ← readAll source with
  | [f] => return f
  | _ => .error .notOneForm

end ConstantFlow.Form

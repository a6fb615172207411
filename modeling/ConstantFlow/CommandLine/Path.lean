/-!
# Paths

A path is shown without the parts that do not matter: repeated slashes, single dots and a slash
at its end. Two slashes in front, and no more than two, are kept apart from one.
-/

namespace ConstantFlow.CommandLine

/-- The pieces of a text between slashes. -/
def pieces : List Char → List (List Char)
  | [] => [[]]
  | '/' :: cs => [] :: pieces cs
  | c :: cs =>
    match pieces cs with
    | p :: ps => (c :: p) :: ps
    | [] => [[c]]

/-- The root that a path starts with: nothing, one slash or two. -/
def root (s : List Char) : String :=
  match (s.takeWhile (· == '/')).length with
  | 0 => ""
  | 2 => "//"
  | _ => "/"

/-- The path without the parts that do not matter. -/
def normalPath (s : String) : String :=
  let parts := (pieces s.toList).filter fun p => p ≠ [] ∧ p ≠ ['.']
  let path := root s.toList ++ "/".intercalate (parts.map String.ofList)
  if path.isEmpty then "." else path

end ConstantFlow.CommandLine

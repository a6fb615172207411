/-!
# Line ends

Files may end their lines with a carriage return, a line feed, or both; each counts as one line
feed.
-/

namespace ConstantFlow.Text

/-- The text with every line end as a line feed. -/
def unifyNewlines : List Char → List Char
  | [] => []
  | '\r' :: '\n' :: cs => '\n' :: unifyNewlines cs
  | '\r' :: cs => '\n' :: unifyNewlines cs
  | c :: cs => c :: unifyNewlines cs

end ConstantFlow.Text

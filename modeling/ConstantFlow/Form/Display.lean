import ConstantFlow.Form.Basic
import ConstantFlow.Number.Shortest
import ConstantFlow.Text.Quoted

/-!
# Forms in messages
-/

namespace ConstantFlow.Form

mutual

/-- A form as messages show it. -/
def display : Form → String
  | .integer n => toString n
  | .real x => x.text
  | .truth b => if b then "True" else "False"
  | .null => "None"
  | .text s => Text.quoted s
  | .symbol s => "Symbol(" ++ Text.quoted s ++ ")"
  | .list items => "[" ++ ", ".intercalate (displays items) ++ "]"
  | .quoted f => "Quoted(" ++ f.display ++ ")"
  | .bracketed items => "Brackets(I=[" ++ ", ".intercalate (displays items) ++ "])"

/-- Several forms, each as messages show it. -/
def displays : List Form → List String
  | [] => []
  | f :: fs => f.display :: displays fs

end

end ConstantFlow.Form

import StyleRef.Validator
import StyleRef.Sheet.Printer
import StyleRef.Resolve

/-
# From text to text

A text that is a style sheet is read, resolved and written again.  A text that
is none is refused before anything is read from it.
-/

namespace StyleRef

/-- The text of a style sheet with its references resolved, if the validator accepts it. -/
def Validator.transform (v : Validator) (scope : Scope) (css : Text) : Except Fault Text :=
  match v.parse css with
  | .error fault => .error fault
  | .ok sheet =>
    let (sheet, result) := sheet.resolve scope
    result.map fun _ => sheet.render

/-- The style sheet that a text holds, if it is one by the grammar. -/
def Stylesheet.parse (css : Text) : Except Fault Stylesheet := Validator.grammar.parse css

def transform (scope : Scope) (css : Text) : Except Fault Text :=
  Validator.grammar.transform scope css

end StyleRef

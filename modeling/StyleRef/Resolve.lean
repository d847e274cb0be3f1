import StyleRef.Matching
import StyleRef.Commit

/-
# Resolving a style sheet

The references of a sheet are indexed, its rules are visited once in document
order, and the ledger is committed.  A sheet without references is left alone.
-/

namespace StyleRef

/-- Puts the values that the references of a style sheet ask for in the place of their tokens. -/
def Stylesheet.resolve (scope : Scope) (s : Stylesheet) : Stylesheet × Except Fault Report :=
  let l := Ledger.ofSheet scope s
  if l.index.isEmpty then (s, .ok .zero) else (l.visitAll s).commit s

end StyleRef

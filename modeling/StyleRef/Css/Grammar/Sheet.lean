import StyleRef.Css.Grammar.Body

/-
# The grammar of style sheets

A style sheet is a list of statements, each in form.  Some at-rules have their
place at the start: imports come before everything but `@charset` and the
statements that name layers, and namespaces come before everything but these
and imports.  At-rules without a block that nobody knows have no place of their
own.  How far a sheet has come is its `Stage`.

Comments mean nothing to the grammar and are left out before it is looked at.
-/

namespace StyleRef

namespace Css

inductive Stage where
  | start
  | layers
  | imports
  | namespaces
  | body
deriving DecidableEq

def Stage.allowsImport (s : Stage) : Bool := s = .start || s = .layers || s = .imports

/-- The stage behind a statement, if it is in form where it stands. -/
def Stage.next? (stage : Stage) : Statement → Option Stage
  | .qualified prelude block =>
    if isSelectorList false prelude && block.any (isBody true) then some .body else none
  | .atRule name prelude block =>
    if isWord name ["import"] then
      if stage.allowsImport && isImportPrelude prelude && block.isNone then some .imports else none
    else if isWord name ["namespace"] then
      if stage ≠ .body && isNamespacePrelude prelude && block.isNone then some .namespaces
      else none
    else if isWord name ["charset"] then
      if isSingle (·.kind = .string) prelude && block.isNone then some stage else none
    else if isWord name ["property"] then
      if isSingle Token.isDashedIdent prelude && block.any isPropertyBody then some .body else none
    else if isAtRule (isBody false) false name prelude block then
      if block.isSome then some .body
      else if isWord name ["layer"] then
        if stage = .start || stage = .layers then some .layers else some .body
      else some stage
    else none

def areStatements (stage : Stage) : List Statement → Bool
  | [] => true
  | s :: ss => (stage.next? s).any fun stage => areStatements stage ss

def accepts (s : Text) : Bool := areStatements .start (statements (withoutComments (lex s)))

end Css

end StyleRef

import StyleRef.Css.Lexer
import StyleRef.Text.Search

/-
# Lists of rules

A list of rules is a list of statements.  A statement is either an at-rule,
which begins with an at-word and ends with a semicolon or with a block, or a
qualified rule, which is anything else up to its block.  White space, comments
and the marks `<!--` and `-->` separate statements.

An `@charset` that begins a list is no statement and left out.
-/

namespace StyleRef

namespace Css

inductive Statement where
  /-- An at-rule; it has no block when a semicolon or the end of the list ends it. -/
  | atRule (name : Text) (prelude : List Token) (block : Option (List Token))
  /-- A qualified rule; it has no block when the list ends before one. -/
  | qualified (prelude : List Token) (block : Option (List Token))
deriving DecidableEq

/-- Splits off what stands before the first token outside all blocks that satisfies `stop`: that,
the block if the token opens one, and what follows the token or the block. -/
def takeUntil (stop : Token → Bool) (ts : List Token) :
    List Token × Option (List Token) × List Token :=
  match spanTop stop ts with
  | (prelude, []) => (prelude, none, [])
  | (prelude, t :: rest) =>
    if t.opensBody then
      let (block, after) := takeBlock .curly rest
      (prelude, some block, after)
    else (prelude, none, rest)

def takeAtRule (ts : List Token) : List Token × Option (List Token) × List Token :=
  takeUntil (fun t => t.isSemicolon || t.opensBody) ts

def Token.isFiller (t : Token) : Bool := t.isGap || t.kind = .cdo || t.kind = .cdc

theorem Token.isFiller_of_isGap {t : Token} (h : t.isGap = true) : t.isFiller = true := by
  simp [isFiller, h]

/-- At most the given number of statements from a list; `fresh` says that none was met before. -/
def statementsFrom : Nat → Bool → List Token → List Statement
  | 0, _, _ => []
  | fuel + 1, fresh, ts =>
    match ts.dropWhile Token.isFiller with
    | [] => []
    | t :: rest =>
      match t.kind with
      | .atKeyword name =>
        let (prelude, block, after) := takeAtRule rest
        if fresh && Text.sameIgnoringCase name "charset".toList then
          statementsFrom fuel false after
        else .atRule name prelude block :: statementsFrom fuel false after
      | _ =>
        let (prelude, block, after) := takeUntil Token.opensBody (t :: rest)
        .qualified prelude block :: statementsFrom fuel false after

/-- The statements of a list of rules.  Each takes a token at least. -/
def statements (ts : List Token) : List Statement := statementsFrom ts.length true ts

/-- Whether a prelude begins as a declaration of a custom property does: with an identifier that
starts with two hyphens, and a colon. -/
def startsCustomProperty (ts : List Token) : Bool :=
  match skipGaps ts with
  | ⟨.ident name, _⟩ :: rest =>
    name.take 2 = ['-', '-'] && ((skipGaps rest).head?.any fun t => t.kind = .colon)
  | _ => false

end Css

end StyleRef

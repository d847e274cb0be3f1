import StyleRef.Sheet.Basic

/-
# Writing a style sheet

A rule is one line: the selector list, then its declarations between braces,
separated by semicolons.  Rules without a query stand at the margin.  A run of
consecutive rules under one query stands, indented by two blanks, in a single
`@media` block of that query.

The printer goes through the rules once and carries the query of the block that
is open; main statement: what is written for a list of rules does not depend on
what was written before, the open block apart (`renderFrom_append`).
-/

namespace StyleRef

/-- `property: value`, then the annotation of an important declaration. -/
def Declaration.render (d : Declaration) : Text :=
  d.property ++ ": ".toList ++ d.value ++ if d.important then " !important".toList else []

def Rule.renderBody : List Declaration → Text
  | [] => ['}']
  | ds => ' ' :: List.intercalate "; ".toList (ds.map Declaration.render) ++ [' ', '}']

/-- A rule without its query: `selector { property: value; property: value }`. -/
def Rule.render (r : Rule) : Text :=
  r.selector ++ [' ', '{'] ++ Rule.renderBody r.declarations

namespace Stylesheet

def opening : Option Text → Text
  | none => []
  | some q => "@media ".toList ++ q ++ [' ', '{', '\n']

def closing : Option Text → Text
  | none => []
  | some _ => ['}', '\n']

def line (r : Rule) : Text :=
  (if r.media.isSome then "  ".toList else []) ++ r.render ++ "\n".toList

/-- What stands between a block of the query `a` and a rule under the query `b`. -/
def between (a b : Option Text) : Text :=
  if b = a then [] else closing a ++ opening b

/-- Writes the rules while the block of `current` is open, and closes the last block. -/
def renderFrom (current : Option Text) : List Rule → Text
  | [] => closing current
  | r :: rs => between current r.media ++ line r ++ renderFrom r.media rs

def render (s : Stylesheet) : Text := renderFrom none s.rules

/-! ## Writing two lists in a row -/

def lastMedia (current : Option Text) (rs : List Rule) : Option Text :=
  (rs.getLast?.map (·.media)).getD current

def renderOpen (current : Option Text) : List Rule → Text
  | [] => []
  | r :: rs => between current r.media ++ line r ++ renderOpen r.media rs

theorem lastMedia_cons (current : Option Text) (r : Rule) (rs : List Rule) :
    lastMedia current (r :: rs) = lastMedia r.media rs := by
  cases rs with
  | nil => rfl
  | cons a rs => simp [lastMedia, List.getLast?_cons]

/-- Writing one list after another: the second goes on with the block that the first left open. -/
theorem renderFrom_append (current : Option Text) (rs ts : List Rule) :
    renderFrom current (rs ++ ts) =
      renderOpen current rs ++ renderFrom (lastMedia current rs) ts := by
  induction rs generalizing current with
  | nil => rfl
  | cons r rs ih => simp [renderFrom, renderOpen, ih, lastMedia_cons]

/-! ## Blocks -/

/-- The text of rules that stand in one block; those without a query stand in none. -/
def block (media : Option Text) (rs : List Rule) : Text :=
  opening media ++ (rs.flatMap line ++ closing media)

/-- A text of blocks in which the rules stand, each in a block of its query. -/
def InBlocks (rs : List Rule) (text : Text) : Prop :=
  ∃ groups : List (Option Text × List Rule), rs = groups.flatMap (·.2) ∧
    (∀ g ∈ groups, g.2 ≠ [] ∧ ∀ r ∈ g.2, r.media = g.1) ∧
    text = groups.flatMap fun g => block g.1 g.2

end Stylesheet

end StyleRef

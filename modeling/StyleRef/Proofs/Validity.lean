import StyleRef.Proofs.OuterSpace
import StyleRef.Proofs.Statements
import StyleRef.Validator

/-
# What is relied on of a validator

Most of what is said of a loaded sheet holds whatever validator accepted the text.
Two things need more: that no declaration is lost, and that a sheet can be loaded
again.  What they need is stated here, of a validator that is not known but for
this.  It has tests of its own for the parts of a sheet (`Css.Parts`).

`Validator.Sound` says what an accepted text is made of: every rule that stands at
the top or in an `@media` block has a list of selectors, a rule inside a rule has a
block, and an `@media` has queries.  `Validator.Complete` says that a text which is
made of nothing but rules with declarations, in `@media` blocks or not, is
accepted.  `Css.Parts.IgnoresSpace` says that white space around the parts makes no
difference to the tests.

What a rule inside a rule is, and what a declaration, depends on the test for
values (`Css.entries`).  Rules that begin as a custom property does need not be
validated; no reader takes them.
-/

namespace StyleRef

namespace Css

/-- What stands in a text: its statements, and what stands in the `@media` blocks among them. -/
inductive Stands (css : Text) : Entry → Prop
  | top {s : Statement} : s ∈ statements (lex css) → Stands css s.entry
  | inside {name : Text} {prelude block : List Token} {e : Bool × Entry} :
      Stands css (.atRule name prelude (some block)) →
      Text.sameIgnoringCase name "media".toList = true → e ∈ entries none block → Stands css e.2

/-- The tests of a validator for the parts of a sheet, all of them of tokens without comments. -/
structure Parts where
  isSelectorList : List Token → Bool
  isMediaList : List Token → Bool
  isValueOf : ValueCheck

namespace Parts

/-- The rule has a list of selectors, and there are only declarations in its block. -/
def TakesRule (p : Parts) (prelude block : List Token) : Prop :=
  p.isSelectorList (withoutComments prelude) = true ∧
    ∀ e ∈ entries (some p.isValueOf) block, e.2.isDeclaration = true

/-- The statement is such a rule, or an `@media` of such rules. -/
def TakesStatement (p : Parts) : Statement → Prop
  | .qualified prelude (some block) => p.TakesRule prelude block
  | .atRule name prelude (some block) =>
    Text.sameIgnoringCase name "media".toList = true ∧
      p.isMediaList (withoutComments prelude) = true ∧
      ∀ e ∈ entries none block, ∃ prelude block, e.2 = .rule prelude (some block) ∧
        p.TakesRule prelude block
  | _ => False

/-- White space makes no difference around lists of selectors and of queries, around a value, and in
an annotation.  Behind the bar of a namespace it may make one. -/
structure IgnoresSpace (p : Parts) : Prop where
  selectors : ∀ ts, settles [] ts = true → NoBar (withoutOuterSpace ts) →
    p.isSelectorList ts = p.isSelectorList (withoutOuterSpace ts)
  queries : ∀ ts, settles [] ts = true → p.isMediaList ts = p.isMediaList (withoutOuterSpace ts)
  values : ∀ property ts us, settles [] ts = true → settles [] us = true →
    valueParts property ts = valueParts property us →
      p.isValueOf property ts = p.isValueOf property us

end Parts

end Css

open Css

namespace Validator

/-- Accepted texts are made of parts that pass the tests. -/
structure Sound (v : Validator) (p : Parts) : Prop where
  selectors : ∀ css, v.Accepts css → ∀ prelude block, Stands css (.rule prelude block) →
    startsCustomProperty prelude = false → p.isSelectorList (withoutComments prelude) = true
  blocks : ∀ css, v.Accepts css → ∀ prelude block, Stands css (.rule prelude (some block)) →
    startsCustomProperty prelude = false →
      ∀ e ∈ entries (some p.isValueOf) block, e.2.isWhole = true
  queries : ∀ css, v.Accepts css → ∀ name prelude block,
    Stands css (.atRule name prelude (some block)) →
      Text.sameIgnoringCase name "media".toList = true →
        p.isMediaList (withoutComments prelude) = true
  /-- No list of selectors begins with `<!--`, `-->` or a semicolon. -/
  marks : ∀ t : Token, t.kind ∈ [.cdo, .cdc, .semicolon] → ∀ ts, p.isSelectorList (t :: ts) = false

/-- Texts that are made of nothing but rules with declarations are accepted. -/
def Complete (v : Validator) (p : Parts) : Prop :=
  ∀ css, (∀ s ∈ statements (lex css), p.TakesStatement s) → v.Accepts css

end Validator

end StyleRef

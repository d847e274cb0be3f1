import StyleRef.Css.Grammar.Sheet
import StyleRef.Sheet.Reader
import StyleRef.Fault

/-
# Validators

The reader takes every text and leaves out what it cannot use, so it does not say
which texts are style sheets.  That is for a validator to say, which looks at the
text before it is read.  Whoever loads a text brings one along; what is loaded
does not depend on which it is, as long as it accepts the text.

A program runs with the grammar of style sheets.
-/

namespace StyleRef

/-- A check of texts, which gives its reason where it takes one for no style sheet. -/
structure Validator where
  check : Text → Except Text Unit

namespace Validator

def Accepts (v : Validator) (css : Text) : Prop := v.check css = .ok ()

instance (v : Validator) (css : Text) : Decidable (v.Accepts css) :=
  match h : v.check css with
  | .ok () => .isTrue h
  | .error _ => .isFalse fun hok => nomatch h.symm.trans hok

/-- The style sheet that an accepted text holds. -/
def parse (v : Validator) (css : Text) : Except Fault Stylesheet :=
  match v.check css with
  | .ok () => .ok (.read css)
  | .error reason => .error (.parse reason)

theorem parse_eq_ok_iff {v : Validator} {css : Text} {s : Stylesheet} :
    v.parse css = .ok s ↔ v.Accepts css ∧ .read css = s := by
  rw [parse, Accepts]
  cases v.check css with
  | ok u => simp
  | error reason => simp

def grammar : Validator where
  check css := if Css.accepts css then .ok () else .error "a rule is not in form".toList

theorem accepts_grammar_iff {css : Text} : grammar.Accepts css ↔ Css.accepts css = true := by
  rw [Accepts, grammar]
  by_cases h : Css.accepts css = true
  · simp [h]
  · simp [h]

end Validator

end StyleRef

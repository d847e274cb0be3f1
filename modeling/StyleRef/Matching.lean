import StyleRef.Ledger

/-
# Visiting the rules

Each rule is held against every target of the index.  A rule *serves* a target
when the target's selector is among the selectors of the rule and the rule
declares the target's property; the last such declaration of the rule is the
supply.  For every target that the rule does not serve, whether it has the
selector or not, the fallback of the target is held ready, if there is one.

A visit takes down the fallbacks first and the supplies after them, each in the
order of the targets, and counts the selectors that the rule has as matched.
-/

namespace StyleRef

/-- The selectors of a rule of which the index was asked something, each at its first place. -/
def Rule.matched (r : Rule) (x : RefIndex) : List Text :=
  (r.selectors.filter x.contains).eraseDups

def Rule.serves? (r : Rule) (i : Nat) (t : Target) : Option Place :=
  if t.selector ∈ r.selectors then (r.lastOf? t.property).map (⟨i, ·⟩) else none

namespace Ledger

def suppliesOf (x : RefIndex) (i : Nat) (r : Rule) : List (Target × Place) :=
  x.targets.filterMap fun t => (r.serves? i t).map (t, ·)

/-- The fallbacks of the targets that a rule does not serve, in their order. -/
def fallbacksBeside (x : RefIndex) (i : Nat) (r : Rule) : List (Target × Text) :=
  x.targets.filterMap fun t =>
    match r.serves? i t with
    | some _ => none
    | none => (x.fallback? t).map (t, ·)

def visit (l : Ledger) (i : Nat) (r : Rule) : Ledger :=
  let l₁ := (fallbacksBeside l.index i r).foldl (fun l (t, v) => l.hold t v) l
  let l₂ := (suppliesOf l.index i r).foldl (fun l (t, p) => l.supply t p) l₁
  (r.matched l.index).foldl dropUnmatched l₂

/-- Visits all rules of a style sheet in document order.  Without references there is nothing to
take down. -/
def visitAll (l : Ledger) (s : Stylesheet) : Ledger :=
  if l.index.isEmpty then l else s.rules.zipIdx.foldl (fun l (r, i) => l.visit i r) l

end Ledger

end StyleRef

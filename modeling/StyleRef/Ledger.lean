import StyleRef.RefIndex

/-
# The ledger of a resolution

While the rules of a style sheet are visited, the ledger takes down what becomes
known about the targets of the index: the declarations found to supply them, the
fallbacks held ready for them, and the selectors that no rule has had so far.

A supply is never struck out: the last one counts.  A fallback that is held
ready is struck out when a supply for its target comes in, and may be put down
again after that.  What all of this amounts to is said once, in `bindings`: a
target that was ever supplied takes its last supply, and a fallback serves only
a target that never was.
-/

namespace StyleRef

/-- Where the value of a target comes from. -/
inductive Supply where
  /-- From the declaration at a place, as it stands when it is needed. -/
  | declaration (place : Place)
  /-- From a fallback. -/
  | fallback (value : Text)
deriving DecidableEq

structure Ledger where
  index : RefIndex
  /-- The supplies in the order in which they came in, repetitions included. -/
  supplies : List (Target × Place)
  /-- The fallbacks held ready. -/
  pending : Table Target Text
  /-- The selectors that no rule has had so far. -/
  unmatched : List Text

namespace Ledger

/-- Nothing known yet: every selector of the index is unmatched. -/
def ofIndex (x : RefIndex) : Ledger := ⟨x, [], .empty, x.selectors⟩

def ofSheet (scope : Scope) (s : Stylesheet) : Ledger := ofIndex (.ofSheet scope s)

/-- Takes down a supply and strikes out the fallback of its target. -/
def supply (l : Ledger) (t : Target) (p : Place) : Ledger :=
  { l with supplies := l.supplies ++ [(t, p)], pending := l.pending.erase t }

/-- Holds a fallback ready, in the place of the one that was held for the target. -/
def hold (l : Ledger) (t : Target) (value : Text) : Ledger :=
  { l with pending := l.pending.set t value }

def addUnmatched (l : Ledger) (selector : Text) : Ledger :=
  if selector ∈ l.unmatched then l else { l with unmatched := l.unmatched ++ [selector] }

def dropUnmatched (l : Ledger) (selector : Text) : Ledger :=
  { l with unmatched := l.unmatched.filter (· ≠ selector) }

/-- Where each target takes its value from: its last supply, or else the fallback held ready for
it.  Supplied targets come first, each at its first supply. -/
def bindings (l : Ledger) : Table Target Supply :=
  l.pending.entries.foldl (fun b (t, v) => b.setIfNew t (.fallback v))
    (l.supplies.foldl (fun b (t, p) => b.set t (.declaration p)) .empty)

@[simp] theorem index_addUnmatched (l : Ledger) (s : Text) :
    (l.addUnmatched s).index = l.index := by
  unfold addUnmatched; split <;> rfl

end Ledger

end StyleRef

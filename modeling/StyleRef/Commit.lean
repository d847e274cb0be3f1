import StyleRef.CommitOrder
import StyleRef.Fault

/-
# Writing the bindings into the style sheet

A ledger is checked before anything is written: no selector may be left that no
rule has and no fallback serves, and the bound targets must have an order.  A
fault found by these checks leaves the sheet as it was.

Then the targets are written in order.  The value of a target is read when its
turn comes, from the sheet as it is by then, and put for the token of each
declaration that asks for it: the first place at which the token's text stands
in the value, and nothing if it stands there no more.
-/

namespace StyleRef

structure Report where
  /-- References that took the value of a declaration. -/
  resolved : Nat
  /-- References that took a fallback. -/
  fallbacks : Nat
  /-- References whose token was left as it is. -/
  untouched : Nat
deriving DecidableEq, Inhabited

def Report.zero : Report := ⟨0, 0, 0⟩

def Report.served (r : Report) (b : Supply) (n : Nat) : Report :=
  match b with
  | .declaration _ => { r with resolved := r.resolved + n }
  | .fallback _ => { r with fallbacks := r.fallbacks + n }

namespace Stylesheet

/-- The value that a supply stands for in the sheet as it is. -/
def supplied (s : Stylesheet) : Supply → Except Fault Text
  | .declaration p =>
    match s.value? p with
    | some v => .ok v
    | none => .error (.noDeclaration (.place p))
  | .fallback v => .ok v

def substitute (s : Stylesheet) (value : Text) (r : Reference) : Stylesheet :=
  s.modifyValue r.place (Text.replaceFirst r.token value)

/-- Puts a value for the tokens of several references, one after the other.  A reference from outside
the sheet stops this where it is met. -/
def substituteAll (s : Stylesheet) (value : Text) : List Reference → Stylesheet × Except Fault Unit
  | [] => (s, .ok ())
  | r :: rs =>
    match s.declaration? r.place with
    | none => (s, .error (.noDeclaration (.place r.place)))
    | some _ => (s.substitute value r).substituteAll value rs

end Stylesheet

namespace Ledger

/-- The selectors that no rule has had and that fallbacks do not serve. -/
def unresolved (l : Ledger) : List Text := l.unmatched.filter fun s => !l.index.isCovered s

/-- The references to a target; none for a target that the index does not have. -/
def referencesTo (l : Ledger) (t : Target) : List Reference := (l.index.group? t).getD []

/-- Writes the targets in the given order.  A target without a supply, and a supply or a reference
from outside the sheet, stop the writing where they are met. -/
def write (l : Ledger) (b : Table Target Supply) :
    List Target → Stylesheet → Report → Stylesheet × Except Fault Report
  | [], s, report => (s, .ok report)
  | t :: ts, s, report =>
    match b.get? t with
    | none => (s, .error (.noDeclaration (.binding t)))
    | some supply =>
      match s.supplied supply with
      | .error fault => (s, .error fault)
      | .ok value =>
        let rs := l.referencesTo t
        match s.substituteAll value rs with
        | (s, .error fault) => (s, .error fault)
        | (s, .ok ()) => l.write b ts s (report.served supply rs.length)

def untouched (l : Ledger) (b : Table Target Supply) : Nat :=
  ((l.index.groups.filter fun (t, _) => !b.contains t).flatMap fun (_, rs) => rs).length

/-- Checks the ledger and writes its bindings into the style sheet. -/
def commit (l : Ledger) (s : Stylesheet) : Stylesheet × Except Fault Report :=
  if l.unresolved ≠ [] then (s, .error (.unresolved l.unresolved))
  else
    match l.index.commitOrder l.bindings with
    | .error chain => (s, .error (.cyclic (chain.map Target.render)))
    | .ok order =>
      let (s', result) := l.write l.bindings order s .zero
      (s', result.map fun r => { r with untouched := l.untouched l.bindings })

end Ledger

end StyleRef

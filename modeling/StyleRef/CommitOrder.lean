import StyleRef.Ledger

/-
# The order of writing

A bound target *depends on* another bound target when the declaration that
supplies it itself asks for the other.  Such a declaration has to be written
before it is read.  Every target depends on at most one other, so what a target
depends on, directly or through others, is a chain.  The order is found by
following the chain of each target in turn until it ends, or until it meets a
target that is in order already, and by writing the chain down from its far end.

A chain that comes back to itself can be written in no order.  What is reported
then is the circle alone, from the first target of it that the walk met.
-/

namespace StyleRef

namespace CommitOrder

/-- What following a chain led to. -/
inductive Walk where
  /-- The targets passed, the last one first. -/
  | ends (path : List Target)
  /-- The targets of a circle, in order; the last is the first again. -/
  | circles (chain : List Target)
deriving DecidableEq

/-- Follows `next` from `t`, in at most the given number of steps.  `path` holds the targets passed
so far, the last one first. -/
def walk (next : Target → Option Target) (done : List Target) :
    Nat → List Target → Target → Walk
  | 0, path, _ => .ends path
  | n + 1, path, t =>
    if t ∈ done then .ends path
    else if t ∈ path then .circles (t :: (path.takeWhile (· ≠ t)).reverse ++ [t])
    else
      match next t with
      | none => .ends (t :: path)
      | some u => walk next done n (t :: path) u

/-- Puts the targets in order after those that are `done`, each behind what it depends on. -/
def arrange (next : Target → Option Target) (steps : Nat) :
    List Target → List Target → Except (List Target) (List Target)
  | done, [] => .ok done
  | done, t :: ts =>
    match walk next done steps [] t with
    | .circles chain => .error chain
    | .ends path => arrange next steps (done ++ path) ts

end CommitOrder

def RefIndex.dependency? (x : RefIndex) (b : Table Target Supply) (t : Target) : Option Target :=
  match b.get? t with
  | some (.declaration p) => (x.askedAt? p).filter b.contains
  | _ => none

/-- The bound targets, each behind what it depends on, and otherwise in the order of the bindings;
or a circle of dependencies.  A walk passes each bound target once at most, so it takes one step
more than there are bindings. -/
def RefIndex.commitOrder (x : RefIndex) (b : Table Target Supply) :
    Except (List Target) (List Target) :=
  CommitOrder.arrange (x.dependency? b) (b.keys.length + 1) [] b.keys

end StyleRef

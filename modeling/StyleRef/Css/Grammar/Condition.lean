import StyleRef.Css.Grammar.Word

/-
# Conditions

A condition is made of groups in brackets, joined by `and` or by `or` but not by
both, or of one group behind `not`.  A group holds a condition again, or a
feature.  What a feature looks like depends on the at-rule; the way conditions
are put together does not.

Reading a piece of a condition yields what follows it.  Where that fails it
matters why: tokens that end too early may be forgiven, others are refused.
-/

namespace StyleRef

namespace Css

/-! ## Reading -/

inductive Failure where
  /-- The tokens end too early. -/
  | ended
  /-- The tokens do not fit. -/
  | refused
deriving DecidableEq

abbrev Reading := Except Failure (List Token)

namespace Reading

/-- A reading that fails where the tokens stand: too early if there are none. -/
def failAt (ts : List Token) : Reading := .error (if isDone ts then .ended else .refused)

/-- The reading of what has to be all there is. -/
def whole (r : Reading) : Reading :=
  match r with
  | .ok rest => if isDone rest then .ok [] else .error .refused
  | .error failure => .error failure

end Reading

/-! ## Groups -/

structure GroupRules where
  /-- What a group holds that is no condition. -/
  feature : List Token → Reading
  /-- What `style()` holds, if it is a group too. -/
  style : Option (List Token → Reading)

mutual

/-- Reads a group, with groups nested no deeper than the given number. -/
def group (rules : GroupRules) : Nat → List Token → Reading
  | 0, _ => .error .refused
  | depth + 1, ts =>
    match skipSpace ts with
    | [] => .error .ended
    | t :: rest =>
      match t.kind with
      | .opening .round =>
        let (inside, after) := takeBlock .round rest
        (contents rules depth inside).map fun _ => after
      | .function name =>
        let (inside, after) := takeBlock .round rest
        match rules.style with
        | some style =>
          if isWord name ["style"] then (style inside).whole.map fun _ => after
          else .error .refused
        | none => .error .refused
      | _ => .error .refused

/-- Reads all that a group holds: a condition, or a feature if it does not begin with one. -/
def contents (rules : GroupRules) : Nat → List Token → Reading
  | 0, _ => .error .refused
  | depth + 1, ts =>
    match condition rules depth true ts with
    | .ok rest => Reading.whole (.ok rest)
    | .error _ => (rules.feature ts).whole

def joined (rules : GroupRules) (word : String) : Nat → List Token → Reading
  | 0, _ => .error .refused
  | depth + 1, ts =>
    match skipSpace ts with
    | [] => .ok []
    | t :: rest =>
      if t.isWordOf [word] then (group rules depth rest).bind (joined rules word depth)
      else .ok (t :: rest)

/-- Reads a condition; `or` may join its groups only if `choices`. -/
def condition (rules : GroupRules) : Nat → Bool → List Token → Reading
  | 0, _, _ => .error .refused
  | depth + 1, choices, ts =>
    match skipSpace ts with
    | [] => .error .ended
    | t :: rest =>
      if t.isWordOf ["not"] then group rules depth rest
      else
        (group rules depth (t :: rest)).bind fun after =>
          match skipSpace after with
          | [] => .ok []
          | u :: next =>
            if u.isWordOf ["and"] then joined rules "and" depth (u :: next)
            else if u.isWordOf ["or"] then
              if choices then joined rules "or" depth (u :: next) else .error .refused
            else .ok (u :: next)

end

/-- A bound on the steps that the tokens of a condition take.  Each is stepped at three times at
most. -/
def conditionDepth (ts : List Token) : Nat := 3 * ts.length + 3

def wholeCondition (rules : GroupRules) (choices : Bool) (ts : List Token) : Reading :=
  (condition rules (conditionDepth ts) choices ts).whole

def groupContents (rules : GroupRules) (ts : List Token) : Reading :=
  contents rules (conditionDepth ts) ts

end Css

end StyleRef

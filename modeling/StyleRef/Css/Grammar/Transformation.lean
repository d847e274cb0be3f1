import StyleRef.Css.Grammar.Quantity

/-
# Transformations

The functions that move, turn and distort a box.  Each takes arguments of its own
kinds with commas in between; some take fewer than they could.
-/

namespace StyleRef

namespace Css

/-- What follows a piece of a value. -/
abbrev Piece := List Token → Option (List Token)

/-- The pieces of the arguments of each function, of which so many must be there. -/
def transformations : List (String × Nat × List Piece) :=
  [("matrix", 6, List.replicate 6 number?), ("matrix3d", 16, List.replicate 16 number?),
    ("translate", 1, [lengthPercentage?, lengthPercentage?]),
    ("translatex", 1, [lengthPercentage?]), ("translatey", 1, [lengthPercentage?]),
    ("translatez", 1, [length?]),
    ("translate3d", 3, [lengthPercentage?, lengthPercentage?, length?]),
    ("scale", 1, [numberOrPercentage?, numberOrPercentage?]),
    ("scalex", 1, [numberOrPercentage?]), ("scaley", 1, [numberOrPercentage?]),
    ("scalez", 1, [numberOrPercentage?]), ("scale3d", 3, List.replicate 3 numberOrPercentage?),
    ("rotate", 1, [angleOrZero?]), ("rotatex", 1, [angleOrZero?]), ("rotatey", 1, [angleOrZero?]),
    ("rotatez", 1, [angleOrZero?]), ("rotate3d", 4, [number?, number?, number?, angleOrZero?]),
    ("skew", 1, [angleOrZero?, angleOrZero?]), ("skewx", 1, [angleOrZero?]),
    ("skewy", 1, [angleOrZero?]), ("perspective", 1, [length?])]

/-- Whether the tokens are pieces with commas in between, at least `least` of them. -/
def arePieces : Nat → List Piece → List Token → Bool
  | _, [], _ => false
  | least, [piece], ts => least ≤ 1 && (piece ts).any isDone
  | least, piece :: pieces, ts =>
    match piece ts with
    | none => false
    | some rest =>
      match token? Token.isComma rest with
      | some rest => arePieces (least - 1) pieces rest
      | none => least ≤ 1 && isDone rest

def transformation? (ts : List Token) : Option (List Token) :=
  match skipSpace ts with
  | ⟨.function name, _⟩ :: rest =>
    let (inside, after) := takeBlock .round rest
    (named? transformations name).bind fun (least, pieces) =>
      if arePieces least pieces inside then some after else none
  | _ => none

def skipTransformations : Nat → List Token → List Token
  | 0, ts => ts
  | fuel + 1, ts =>
    match transformation? ts with
    | some rest => skipTransformations fuel rest
    | none => ts

/-- What follows a list of transformations, which `none` says is empty. -/
def transformationList? (ts : List Token) : Option (List Token) :=
  match token? (Token.isWordOf ["none"]) ts with
  | some rest => some rest
  | none => (transformation? ts).map fun rest => skipTransformations rest.length rest

end Css

end StyleRef

import StyleRef.Css.Grammar.Color
import StyleRef.Css.Grammar.Transformation

/-
# Images

An image is an address, a gradient, or a set of images for several resolutions.
A gradient is a list of colors with the places where they stand, behind the
direction or the shape in which it spreads.
-/

namespace StyleRef

namespace Css

namespace Piece

def optional (p : Piece) : Piece := fun ts => some ((p ts).getD ts)

def inOrder (ps : List Piece) : Piece := fun ts => ps.foldlM (fun ts p => p ts) ts

def oneOf (ps : List Piece) : Piece := fun ts => ps.findSome? (· ts)

/-- One piece, or another, or both. -/
def oneOrBoth (p q : Piece) : Piece := oneOf [inOrder [p, optional q], q]

def word (words : List String) : Piece := token? (Token.isWordOf words)

def function (words : List String) (p : List Token → Bool) : Piece := fun ts =>
  match skipSpace ts with
  | ⟨.function name, _⟩ :: rest =>
    let (inside, after) := takeBlock .round rest
    if isWord name words && p inside then some after else none
  | _ => none

end Piece

open Piece

/-! ## Addresses -/

def address? : Piece :=
  oneOf [token? (·.kind = .url), function ["url"] (isSingle (·.kind = .string))]

def addressOrString? : Piece := oneOf [address?, token? (·.kind = .string)]

/-! ## Places -/

def horizontalSide? : Piece := word ["left", "right"]

def verticalSide? : Piece := word ["top", "bottom"]

def center? : Piece := word ["center"]

/-- A side, with the distance from it perhaps. -/
def offset (side : Piece) : Piece := inOrder [side, optional lengthPercentage?]

/-- A place in a box: one or two sides, each with a distance perhaps, or one or two distances.
What comes first decides what may follow. -/
def position? : Piece := fun ts =>
  if (center? ts).isSome then
    inOrder [center?, optional (oneOf [offset verticalSide?, offset horizontalSide?, center?,
      lengthPercentage?])] ts
  else if (horizontalSide? ts).isSome then
    inOrder [offset horizontalSide?, optional (oneOf [center?, offset verticalSide?])] ts
  else if (lengthPercentage? ts).isSome then
    inOrder [lengthPercentage?, optional (oneOf [verticalSide?, lengthPercentage?, center?])] ts
  else
    inOrder [verticalSide?,
      optional (inOrder [optional lengthPercentage?, oneOf [offset horizontalSide?, center?]])] ts

/-! ## Gradients -/

/-- The direction of a linear gradient: an angle, or a side or a corner behind `to`, which is left
out where the function has the mark of a maker. -/
def lineDirection? (marked : Bool) : Piece :=
  let corner := oneOf
    [inOrder [horizontalSide?, optional verticalSide?],
      inOrder [verticalSide?, optional horizontalSide?]]
  oneOf [angleOrZero?, if marked then corner else inOrder [word ["to"], corner]]

def extent? : Piece := word ["closest-side", "farthest-side", "closest-corner", "farthest-corner"]

def ellipse? : Piece := fun ts =>
  let size := inOrder [lengthPercentage?, lengthPercentage?]
  let ellipse := word ["ellipse"]
  if (inOrder [extent?, word ["circle"]] ts).isSome then none
  else if (extent? ts).isSome then inOrder [extent?, optional ellipse] ts
  else if (lengthPercentage? ts).isSome then inOrder [size, optional ellipse] ts
  else
    (ellipse ts).bind fun rest =>
      if (lengthPercentage? rest).isSome then size rest else optional extent? rest

def circle? : Piece := fun ts =>
  let circle := word ["circle"]
  if (extent? ts).isSome then inOrder [extent?, circle] ts
  else if (length? ts).isSome then inOrder [length?, optional circle] ts
  else inOrder [circle, optional (oneOf [extent?, length?])] ts

def shape? : Piece := oneOf [ellipse?, circle?]

/-- Whether the parts between commas are colors with their places, and places in between; `hint`
says that a place may come. -/
def areStops (place : Piece) : Bool → List (List Token) → Bool
  | _, [] => true
  | hint, part :: parts =>
    if hint && (place part).isSome then (place part).any isDone && areStops place false parts
    else
      (inOrder [color?, optional place, optional place] part).any isDone && areStops place true parts

/-- Whether the tokens are a gradient: what may come first, with a comma behind it, and colors. -/
def isGradient (first place : Piece) (ts : List Token) : Bool :=
  match first ts with
  | some rest =>
    (token? Token.isComma rest).any fun rest => areStops place false (splitCommas rest)
  | none => areStops place false (splitCommas ts)

/-- A gradient that spreads in the way, behind one of the marks. -/
def gradient (marks : List String) (way : String) (first place : Piece) : Piece :=
  let names := marks.flatMap fun mark =>
    [mark ++ way ++ "-gradient", mark ++ "repeating-" ++ way ++ "-gradient"]
  function names (isGradient first place)

def gradient? : Piece :=
  let marks := ["-webkit-", "-moz-", "-o-"]
  let center := inOrder [word ["at"], position?]
  oneOf
    [gradient [""] "linear" (lineDirection? false) lengthPercentage?,
      gradient marks "linear" (lineDirection? true) lengthPercentage?,
      gradient ("" :: marks) "radial" (oneOrBoth shape? center) lengthPercentage?,
      gradient [""] "conic" (oneOrBoth (inOrder [word ["from"], angleOrZero?]) center)
        (oneOf [angle?, percentage?])]

/-! ## Images -/

def fileType? : Piece := function ["type"] (isSingle (·.kind = .string))

/-- An image, with sets of images nested no deeper than the given number. -/
def imageWithin? : Nat → Piece
  | 0 => fun _ => none
  | depth + 1 =>
    let choice := inOrder
      [oneOf [addressOrString?, imageWithin? depth],
        oneOf [inOrder [resolution?, optional fileType?],
          inOrder [optional fileType?, optional resolution?]]]
    oneOf [word ["none"], address?, gradient?,
      function ["image-set", "-webkit-image-set"] fun ts =>
        (splitCommas ts).all fun part => (choice part).any isDone]

def image? : Piece := fun ts => imageWithin? (ts.length + 1) ts

end Css

end StyleRef

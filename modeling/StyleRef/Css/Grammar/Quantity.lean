import StyleRef.Css.Grammar.Calculation

/-
# Quantities

The pieces of values that are numbers or so many of a unit.  Each function says
what follows such a piece at the front of the tokens, behind white space.

In the place of a token there may be a calculation.  Where a number is wanted it
has to come to a number, and where a quantity is wanted whose unit does not
matter, an angle for one, to such a quantity; a length may come to anything.
Whole numbers and resolutions are not calculated.
-/

namespace StyleRef

namespace Css

def resolutionUnits : List String := ["dpi", "dpcm", "dppx", "x"]

namespace Amount

def isNumber : Amount → Bool
  | number _ => true
  | _ => false

def isQuantity : Amount → Bool
  | quantity _ _ => true
  | _ => false

end Amount

/-- What follows a token that satisfies `p`, or a calculation that comes to what satisfies `q`. -/
def measured? (measure : Measure) (p : Token → Bool) (q : Amount → Bool) (ts : List Token) :
    Option (List Token) :=
  match skipSpace ts with
  | [] => none
  | t :: rest =>
    match t.kind with
    | .function name =>
      let (inside, after) := takeBlock .round rest
      if (calculation? measure name inside).any q then some after else none
    | _ => if p t then some rest else none

def Token.isNumber (t : Token) : Bool := match t.kind with | .number _ _ => true | _ => false

def Token.isInteger (t : Token) : Bool :=
  match t.kind with
  | .number _ integral => integral
  | _ => false

def Token.hasMeasure (measure : Measure) (t : Token) : Bool := (Amount.ofToken? measure t).isSome

def number? (ts : List Token) : Option (List Token) :=
  measured? .number Token.isNumber Amount.isNumber ts

/-- What follows a length; a number is so many pixels. -/
def length? (ts : List Token) : Option (List Token) :=
  measured? .length (fun t => t.isNumber || t.hasMeasure .length) (fun _ => true) ts

def percentage? (ts : List Token) : Option (List Token) :=
  measured? .percentage (·.hasMeasure .percentage) Amount.isQuantity ts

def lengthPercentage? (ts : List Token) : Option (List Token) :=
  measured? .lengthPercentage (fun t => t.isNumber || t.hasMeasure .lengthPercentage)
    (fun _ => true) ts

def angle? (ts : List Token) : Option (List Token) :=
  measured? .angle (·.hasMeasure .angle) Amount.isQuantity ts

def angleOrZero? (ts : List Token) : Option (List Token) :=
  measured? .angle (fun t => t.hasMeasure .angle || (t.isNumber && t.value == 0))
    Amount.isQuantity ts

def time? (ts : List Token) : Option (List Token) :=
  measured? .time (·.hasMeasure .time) Amount.isQuantity ts

def token? (p : Token → Bool) (ts : List Token) : Option (List Token) :=
  match skipSpace ts with
  | t :: rest => if p t then some rest else none
  | [] => none

def integer? (ts : List Token) : Option (List Token) := token? Token.isInteger ts

def resolution? (ts : List Token) : Option (List Token) :=
  let isResolution (t : Token) : Bool :=
    match t.kind with
    | .dimension _ unit => isWord unit resolutionUnits
    | _ => false
  token? isResolution ts

def quotient? (ts : List Token) : Option (List Token) :=
  ((number? ts).bind (token? (Token.isDelim '/'))).bind number?

/-- What follows a number, and a second one behind a slash. -/
def ratio? (ts : List Token) : Option (List Token) :=
  (number? ts).bind fun rest =>
    match token? (Token.isDelim '/') rest with
    | some rest => number? rest
    | none => some rest

def numberOrPercentage? (ts : List Token) : Option (List Token) := (number? ts).or (percentage? ts)

end Css

end StyleRef

import StyleRef.Css.Grammar.Word
import StyleRef.Css.Literal

/-
# Calculations

`calc()` and the other functions that compute: sums of products of numbers and
quantities.  Whether a calculation may stand somewhere depends on what it comes
to, so it is carried out as far as that goes: to a number, to a quantity in one
unit, or to something that only its place can settle, such as the sum of a length
and a percentage.

A sum has white space around its signs, a product may have it.  One side of a
product is a number, and nothing is divided by anything but a number other than
zero.
-/

namespace StyleRef

namespace Css

/-! ## Quantities -/

inductive Measure where
  | number
  | length
  | percentage
  | lengthPercentage
  | angle
  | time
deriving DecidableEq

inductive Amount where
  | number (value : Float32)
  /-- So many of a unit. -/
  | quantity (unit : String) (value : Float32)
  /-- What only its place settles. -/
  | unsettled

/-- The units of length that are fractions of each other, with the pixels that they hold. -/
def absoluteLengths : List (String × Float32) :=
  [("px", 1), ("in", 96), ("cm", 96 / 2.54), ("mm", 96 / 25.4), ("q", 96 / 101.6), ("pt", 96 / 72),
    ("pc", 16)]

/-- The units of length that depend on a font or on a box. -/
def relativeLengths : List String :=
  ["em", "rem", "ex", "rex", "ch", "rch", "cap", "rcap", "ic", "ric", "lh", "rlh", "vw", "lvw",
    "svw", "dvw", "cqw", "vh", "lvh", "svh", "dvh", "cqh", "vi", "svi", "lvi", "dvi", "cqi", "vb",
    "svb", "lvb", "dvb", "cqb", "vmin", "svmin", "lvmin", "dvmin", "cqmin", "vmax", "svmax",
    "lvmax", "dvmax", "cqmax"]

def angles : List (String × Float32) :=
  [("deg", 1), ("grad", 0.9), ("turn", 360), ("rad", 180 / 3.14159265)]

def times : List (String × Float32) := [("s", 1), ("ms", 0.001)]

namespace Amount

/-- So many of a unit, in the first of the units that it can be turned into. -/
def inUnits? (units : List (String × Float32)) (unit : Text) (value : Float32) : Option Amount :=
  (named? units unit).bind fun factor =>
    units.head?.map fun (first, _) => quantity first (factor * value)

def length? (unit : Text) (value : Float32) : Option Amount :=
  (inUnits? absoluteLengths unit value).or
    ((relativeLengths.find? fun name => isWord unit [name]).map (quantity · value))

def ofToken? (measure : Measure) (t : Token) : Option Amount :=
  match measure, t.kind with
  | .length, .dimension _ unit => length? unit t.value
  | .lengthPercentage, .dimension _ unit => length? unit t.value
  | .percentage, .percentage => some (quantity "%" t.value)
  | .lengthPercentage, .percentage => some (quantity "%" t.value)
  | .angle, .dimension _ unit => inUnits? angles unit t.value
  | .time, .dimension _ unit => inUnits? times unit t.value
  | _, _ => none

/-! ## Operations -/

/-- Two numbers, or two quantities in one unit, put together by the operation. -/
def combine? (op : Float32 → Float32 → Float32) : Amount → Amount → Option Amount
  | number a, number b => some (number (op a b))
  | quantity u a, quantity v b => if u = v then some (quantity u (op a b)) else none
  | _, _ => none

def add (a b : Amount) : Amount := (combine? (· + ·) a b).getD unsettled

def scale (factor : Float32) : Amount → Amount
  | number a => number (a * factor)
  | quantity u a => quantity u (a * factor)
  | unsettled => unsettled

def mul? : Amount → Amount → Option Amount
  | a, number b => some (a.scale b)
  | number a, b => some (b.scale a)
  | _, _ => none

/-- The quotient by a number other than zero. -/
def div? : Amount → Amount → Option Amount
  | a, number b => if b == 0 then none else some (a.scale (1 / b))
  | _, _ => none

def compare? : Amount → Amount → Option Ordering
  | quantity u a, quantity v b =>
    if u ≠ v then none
    else if a < b then some .lt
    else if b < a then some .gt
    else if a == b then some .eq
    else none
  | _, _ => none

/-- The amounts with one more.  Of those that can be compared only the one is kept that comes first
in the order. -/
def keepFirst (order : Ordering) (a : Amount) : List Amount → List Amount
  | [] => [a]
  | b :: bs =>
    match compare? a b with
    | none => b :: keepFirst order a bs
    | some o => if o = order then a :: bs else b :: bs

/-- The least or the greatest of the amounts, if they can all be compared. -/
def extreme (order : Ordering) (as : List Amount) : Amount :=
  match as.foldl (fun kept a => keepFirst order a kept) [] with
  | [a] => a
  | _ => unsettled

/-- An amount between two others.  A bound that is not passed is dropped, and one that is passed
takes the amount's place; the lower bound has the last word. -/
def clamp (low a high : Amount) : Amount :=
  let (a, capped) :=
    match compare? a high with
    | some .gt => (high, true)
    | some _ => (a, true)
    | none => (a, false)
  match compare? a low with
  | some .lt => if capped then low else unsettled
  | some _ => if capped then a else unsettled
  | none => unsettled

/-- The sign, as a number.  That of a percentage depends on what it is a part of. -/
def sign : Amount → Amount
  | number a => number (if a < 0 then -1 else if 0 < a then 1 else a)
  | quantity u a =>
    if u = "%" then unsettled else number (if a < 0 then -1 else if 0 < a then 1 else a)
  | unsettled => unsettled

def abs : Amount → Amount
  | number a => number a.abs
  | quantity u a => if u = "%" then unsettled else quantity u a.abs
  | unsettled => unsettled

def hypot (as : List Amount) : Amount :=
  let diagonal (a b : Float32) : Float32 := (a * a + b * b).sqrt
  match as with
  | [] => unsettled
  | [a] => a
  | [a, b] => (combine? diagonal a b).getD unsettled
  | a :: as =>
    (as.foldl (fun sum b => sum.bind fun a => combine? diagonal a b.abs) (some a.abs)).getD
      unsettled

def radians (degrees : Float32) : Float32 := degrees * (3.14159265 / 180)

/-- The angle whose circumference on the unit circle is given. -/
def ofRadians (a : Float32) : Amount := quantity "deg" (a * (180 / 3.14159265))

end Amount

def truncate (a : Float32) : Float32 := if a < 0 then a.ceil else a.floor

/-- The remainder with the sign of the dividend. -/
def remainder (a b : Float32) : Float32 := a - b * truncate (a / b)

/-- The remainder with the sign of the divisor. -/
def modulus (a b : Float32) : Float32 := remainder (remainder a b + b) b

def roundingWords : List String := ["nearest", "up", "down", "to-zero"]

def roundTo (way : Text) (a b : Float32) : Float32 :=
  if isWord way ["up"] then (a / b).ceil * b
  else if isWord way ["down"] then (a / b).floor * b
  else if isWord way ["to-zero"] then truncate (a / b) * b
  else (a / b).round * b

/-! ## Names -/

def constants : List (String × Float32) :=
  [("e", 2.71828183), ("pi", 3.14159265), ("infinity", 1 / 0), ("-infinity", -1 / 0),
    ("nan", 0 / 0)]

inductive Computation where
  | ofOne (f : Amount → Amount)
  | ofList (f : List Amount → Amount)
  | ofTwo (op : Float32 → Float32 → Float32)
  | ofThree (f : Amount → Amount → Amount → Amount)
  /-- Two arguments, perhaps behind the way to round. -/
  | rounding
  | ofNumbers (f : List Float32 → Option Float32)
  /-- An angle, or a number as a part of the circumference. -/
  | ofAngle (f : Float32 → Float32)
  /-- The angle for which a function has the number. -/
  | arc (f : Float32 → Float32)
  /-- The angle of the point with the two coordinates. -/
  | direction

def computations : List (String × Computation) :=
  [("calc", .ofOne id), ("abs", .ofOne Amount.abs), ("sign", .ofOne Amount.sign),
    ("min", .ofList (Amount.extreme .lt)), ("max", .ofList (Amount.extreme .gt)),
    ("hypot", .ofList Amount.hypot), ("rem", .ofTwo remainder), ("mod", .ofTwo modulus),
    ("clamp", .ofThree Amount.clamp), ("round", .rounding),
    ("pow", .ofNumbers fun | [a, b] => some (a.pow b) | _ => none),
    ("log", .ofNumbers fun | [a] => some a.log | [a, b] => some (a.log / b.log) | _ => none),
    ("sqrt", .ofNumbers fun | [a] => some a.sqrt | _ => none),
    ("exp", .ofNumbers fun | [a] => some a.exp | _ => none),
    ("sin", .ofAngle Float32.sin), ("cos", .ofAngle Float32.cos), ("tan", .ofAngle Float32.tan),
    ("asin", .arc Float32.asin), ("acos", .arc Float32.acos), ("atan", .arc Float32.atan),
    ("atan2", .direction)]

/-! ## Reading a calculation -/

/-- What follows a sign that adds a product or takes it away, and which of them it is. -/
def sumSign? : List Token → Option (Float32 × List Token)
  | t :: rest =>
    if t.isDelim '+' then some (1, rest) else if t.isDelim '-' then some (-1, rest) else none
  | [] => none

def whole? (result : Option (Amount × List Token)) : Option Amount :=
  result.bind fun (a, rest) => if isDone rest then some a else none

def asNumber? : Amount → Option Float32
  | .number a => some a
  | _ => none

/-- A function of an angle, or of a number as a part of the circumference. -/
def ofAngle? (f : Float32 → Float32) : Amount → Option Amount
  | .number a => some (.number (f a))
  | .quantity _ degrees => some (.number (f (Amount.radians degrees)))
  | .unsettled => none

/-- The angle for which a function has the number; where there is none the result is no angle. -/
def arc? (measure : Measure) (f : Float32 → Float32) : Amount → Option Amount
  | .number a =>
    if (f a).isNaN then some (.number (f a))
    else if measure = .angle then some (Amount.ofRadians (f a))
    else none
  | _ => none

def direction? : List Amount → Option Amount
  | [a, b] =>
    match a.combine? Float32.atan2 b with
    | some (.number c) => some (Amount.ofRadians c)
    | some (.quantity _ c) => some (Amount.ofRadians c)
    | _ => none
  | _ => none

def two? (op : Float32 → Float32 → Float32) : List Amount → Option Amount
  | [a, b] => some ((a.combine? op b).getD .unsettled)
  | _ => none

def roundingWay? (ts : List Token) : Option (Text × List Token) :=
  match skipSpace ts with
  | ⟨.ident way, _⟩ :: rest =>
    if isWord way roundingWords then
      match skipSpace rest with
      | ⟨.comma, _⟩ :: rest => some (way, rest)
      | _ => none
    else some ([], ts)
  | _ => some ([], ts)

mutual

def sum? : Nat → Measure → List Token → Option (Amount × List Token)
  | 0, _, _ => none
  | fuel + 1, measure, ts =>
    (product? fuel measure ts).bind fun (a, rest) => terms? fuel measure a rest

/-- A sum goes on with every sign behind white space. -/
def terms? : Nat → Measure → Amount → List Token → Option (Amount × List Token)
  | 0, _, _, _ => none
  | fuel + 1, measure, a, ts =>
    if !ts.head?.any (·.kind = .space) || isDone ts then some (a, ts)
    else
      (sumSign? (skipSpace ts)).bind fun (sign, rest) =>
        (product? fuel measure rest).bind fun (b, rest) =>
          terms? fuel measure (a.add (b.scale sign)) rest

def product? : Nat → Measure → List Token → Option (Amount × List Token)
  | 0, _, _ => none
  | fuel + 1, measure, ts =>
    (operand? fuel measure ts).bind fun (a, rest) => factors? fuel measure a rest

/-- A product goes on with every star and every slash. -/
def factors? : Nat → Measure → Amount → List Token → Option (Amount × List Token)
  | 0, _, _, _ => none
  | fuel + 1, measure, a, ts =>
    match skipSpace ts with
    | ⟨.delim '*', _⟩ :: rest =>
      (operand? fuel measure rest).bind fun (b, rest) =>
        (a.mul? b).bind fun c => factors? fuel measure c rest
    | ⟨.delim '/', _⟩ :: rest =>
      (operand? fuel measure rest).bind fun (b, rest) =>
        (a.div? b).bind fun c => factors? fuel measure c rest
    | _ => some (a, ts)

def operand? : Nat → Measure → List Token → Option (Amount × List Token)
  | 0, _, _ => none
  | fuel + 1, measure, ts =>
    match skipSpace ts with
    | [] => none
    | t :: rest =>
      match t.kind with
      | .function name =>
        let (inside, after) := takeBlock .round rest
        (computed? fuel measure name inside).map (·, after)
      | .opening .round =>
        let (inside, after) := takeBlock .round rest
        (whole? (sum? fuel measure inside)).map (·, after)
      | .number _ _ => some (.number t.value, rest)
      | .ident name => (named? constants name).map (.number ·, rest)
      | _ => (Amount.ofToken? measure t).map (·, rest)

def sums? : Nat → Measure → List Token → Option (List Amount)
  | 0, _, _ => none
  | fuel + 1, measure, ts =>
    (sum? fuel measure ts).bind fun (a, rest) =>
      match rest with
      | ⟨.comma, _⟩ :: more => (sums? fuel measure more).map (a :: ·)
      | _ => if isDone rest then some [a] else none

def computed? : Nat → Measure → Text → List Token → Option Amount
  | 0, _, _, _ => none
  | fuel + 1, measure, name, ts =>
    match named? computations name with
    | none => none
    | some (.ofOne f) => (whole? (sum? fuel measure ts)).map f
    | some (.ofList f) =>
      ((splitCommas ts).mapM fun part => whole? (sum? fuel measure part)).map f
    | some (.ofTwo op) => (sums? fuel measure ts).bind (two? op)
    | some (.ofThree f) =>
      match sums? fuel measure ts with
      | some [a, b, c] => some (f a b c)
      | _ => none
    | some .rounding =>
      (roundingWay? ts).bind fun (way, rest) => (sums? fuel measure rest).bind (two? (roundTo way))
    | some (.ofNumbers f) =>
      (((sums? fuel .number ts).bind (·.mapM asNumber?)).bind f).map .number
    | some (.ofAngle f) => (whole? (sum? fuel .angle ts)).bind (ofAngle? f)
    | some (.arc f) => (whole? (sum? fuel .angle ts)).bind (arc? measure f)
    | some .direction =>
      if measure = .angle then
        [Measure.length, .percentage, .angle, .time, .number].findSome? fun measure =>
          (sums? fuel measure ts).bind direction?
      else none

end

/-- What the function with the name comes to, if it is one that computes.  Each step takes a token,
or stands between two that do. -/
def calculation? (measure : Measure) (name : Text) (ts : List Token) : Option Amount :=
  computed? (4 * ts.length + 4) measure name ts

end Css

end StyleRef

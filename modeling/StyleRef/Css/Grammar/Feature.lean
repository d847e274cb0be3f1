import StyleRef.Css.Grammar.Condition
import StyleRef.Css.Grammar.Value

/-
# Features

What media queries and conditions on containers ask about.  A feature that is
known takes values of one type; any other takes any value.  It stands alone, or
before a colon and a value, or in a comparison with one value or between two.

Only features whose values have an order can be compared.  A name may bound its
feature from one side (`min-`, `max-`); it then is a comparison by itself.
-/

namespace StyleRef

namespace Css

/-! ## Types of features -/

inductive FeatureType where
  | length
  | number
  | integer
  | boolean
  | resolution
  | ratio
  | ident
  | unknown
deriving DecidableEq

namespace FeatureType

def isOrdered : FeatureType → Bool
  | boolean => false
  | ident => false
  | _ => true

/-- Whether a value of the type `v` goes with a feature of the type `t`. -/
def takes (t v : FeatureType) : Bool := t = unknown || v = unknown || t = v

end FeatureType

abbrev FeatureTable := List (FeatureType × List String)

def mediaFeatures : FeatureTable :=
  [(.length, ["width", "height", "device-width", "device-height"]),
    (.ratio, ["aspect-ratio", "device-aspect-ratio"]),
    (.resolution, ["resolution"]),
    (.boolean, ["grid"]),
    (.integer, ["color", "color-index", "monochrome", "horizontal-viewport-segments",
      "vertical-viewport-segments"]),
    (.number, ["-webkit-device-pixel-ratio", "-moz-device-pixel-ratio"]),
    (.ident, ["orientation", "overflow-block", "overflow-inline", "display-mode", "scan", "update",
      "environment-blending", "color-gamut", "dynamic-range", "inverted-colors", "pointer", "hover",
      "any-pointer", "any-hover", "nav-controls", "video-color-gamut", "video-dynamic-range",
      "scripting", "prefers-reduced-motion", "prefers-reduced-transparency", "prefers-contrast",
      "forced-colors", "prefers-color-scheme", "prefers-reduced-data"])]

def containerFeatures : FeatureTable :=
  [(.length, ["width", "height", "inline-size", "block-size"]), (.ratio, ["aspect-ratio"]),
    (.ident, ["orientation"])]

namespace FeatureTable

def type? (table : FeatureTable) (name : Text) : Option FeatureType :=
  (table.find? fun (_, names) => isWord name names).map (·.1)

/-- The name of a feature without `min-` or `max-`, which may stand behind `-webkit-`. -/
def withoutBound? (name : Text) : Option Text :=
  let bound? (s : Text) : Option Text :=
    if isWord (s.take 4) ["min-", "max-"] then some (s.drop 4) else none
  if isWord (name.take 8) ["-webkit-"] then
    (bound? (name.drop 8)).map fun s => "-webkit-".toList ++ s
  else bound? name

/-- The type of a feature, and whether its name bounds it from one side. -/
def lookup (table : FeatureTable) (name : Text) : FeatureType × Bool :=
  if isDashed name then (.unknown, false)
  else
    match (withoutBound? name).bind table.type? with
    | some type => (type, true)
    | none => ((table.type? name).getD .unknown, false)

end FeatureTable

/-! ## Values -/

def Token.isBit (t : Token) : Bool :=
  t.isInteger &&
    match (withoutSign t.text).dropWhile (· = '0') with
    | [] => true
    | ['1'] => !isNegative t.text
    | _ => false

def typedValue? (type : FeatureType) (ts : List Token) : Option (List Token) :=
  match type with
  | .length => length? ts
  | .number => number? ts
  | .integer => integer? ts
  | .boolean => token? Token.isBit ts
  | .resolution => resolution? ts
  | .ratio => ratio? ts
  | .ident => token? Token.isIdent ts
  | .unknown => none

def environment? (ts : List Token) : Option (List Token) :=
  match skipSpace ts with
  | ⟨.function name, _⟩ :: rest =>
    let (inside, after) := takeBlock .round rest
    if isWord name ["env"] && areEnvironmentArguments inside then some after else none
  | _ => none

/-- The ways to read a value whose type does not decide, in their order. -/
def untypedValues : List (FeatureType × (List Token → Option (List Token))) :=
  [(.ratio, quotient?), (.number, number?), (.length, length?), (.resolution, resolution?),
    (.unknown, environment?), (.ident, token? Token.isIdent)]

/-- The value for a feature of the type: its own type, and what follows it.  A value that does not
fit the type is read by what it looks like. -/
def featureValue? (type : FeatureType) (ts : List Token) : Option (FeatureType × List Token) :=
  match typedValue? type ts with
  | some rest => some (type, rest)
  | none => untypedValues.findSome? fun (own, read) => (read ts).map (own, ·)

/-! ## Comparisons -/

inductive Comparison where
  | less
  | atMost
  | greater
  | atLeast
  | equal
deriving DecidableEq

/-- The comparisons that may stand behind the name of a feature, by the one before it: they go the
same way, and none is strict behind one that is not. -/
def Comparison.successors : Comparison → List Comparison
  | less => [less, atMost]
  | atMost => [atMost]
  | greater => [greater, atLeast]
  | atLeast => [atLeast]
  | equal => []

def comparison? (ts : List Token) : Option (Comparison × List Token) :=
  let orEqual (strict loose : Comparison) (rest : List Token) : Comparison × List Token :=
    match token? (Token.isDelim '=') rest with
    | some rest => (loose, rest)
    | none => (strict, rest)
  match skipSpace ts with
  | ⟨.delim '=', _⟩ :: rest => some (.equal, rest)
  | ⟨.delim '>', _⟩ :: rest => some (orEqual .greater .atLeast rest)
  | ⟨.delim '<', _⟩ :: rest => some (orEqual .less .atMost rest)
  | _ => none

/-- What may stand behind the name of a feature: a colon or a comparison. -/
def sign? (ts : List Token) : Option (Option Comparison × List Token) :=
  match token? (·.kind = .colon) ts with
  | some rest => some (none, rest)
  | none => (comparison? ts).map fun (c, rest) => (some c, rest)

/-! ## Features -/

def fittingValue (type : FeatureType) (ts : List Token) : Reading :=
  match featureValue? type ts with
  | none => .failAt ts
  | some (own, rest) => if type.takes own then .ok rest else .error .refused

/-- Reads a feature whose name comes first.  There is no answer if the tokens may still be a feature
whose name comes later. -/
def nameFirst? (table : FeatureTable) (ts : List Token) : Option Reading :=
  match skipSpace ts with
  | ⟨.ident name, _⟩ :: rest =>
    let (type, bounded) := table.lookup name
    match sign? rest with
    | none => some (.ok rest)
    | some (comparison, value) =>
      if comparison.isSome && bounded then some (.error .refused)
      else
        match featureValue? type value with
        | none => none
        | some (own, rest) =>
          if type.takes own && (type.isOrdered || !(comparison.isSome || bounded)) then
            some (.ok rest)
          else some (.error .refused)
  | _ => none

/-- Reads the comparison behind the name of a feature and the value that it ends with, both of which
may be left out, where `first` stands before the name. -/
def secondComparison (type : FeatureType) (first : Comparison) (ts : List Token) : Reading :=
  match comparison? ts with
  | none => .ok ts
  | some (second, rest) =>
    if first.successors.contains second then fittingValue type rest else .error .refused

/-- Reads a feature between values.  It is named by the first identifier outside all blocks. -/
def valueFirst (table : FeatureTable) (ts : List Token) : Reading :=
  match (spanTop Token.isIdent ts).2 with
  | ⟨.ident name, _⟩ :: _ =>
    let (type, bounded) := table.lookup name
    if bounded then .error .refused
    else
      match featureValue? type ts with
      | none => .failAt ts
      | some (own, rest) =>
        match comparison? rest with
        | none => .failAt rest
        | some (first, rest) =>
          match token? Token.isIdent rest with
          | none => .failAt rest
          | some rest =>
            if type.isOrdered && type.takes own then secondComparison type first rest
            else .error .refused
  | _ => .error .refused

def feature (table : FeatureTable) (ts : List Token) : Reading :=
  (nameFirst? table ts).getD (valueFirst table ts)

end Css

end StyleRef

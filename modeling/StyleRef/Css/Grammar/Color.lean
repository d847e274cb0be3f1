import StyleRef.Css.Grammar.Quantity

/-
# Colors

A color is a name, digits behind a hash, or a function of components.  The
components of the older functions may have commas in between; those of the newer
ones have none and put the opacity behind a slash.  A function may take its
components from another color (`from`), which then may be named in their place.

Colors that only their place settles, such as `currentcolor`, are colors but
nothing can be taken from them or mixed with them.
-/

namespace StyleRef

namespace Css

/-! ## Names -/

def namedColors : List String :=
  ["aliceblue", "antiquewhite", "aqua", "aquamarine", "azure", "beige", "bisque", "black",
    "blanchedalmond", "blue", "blueviolet", "brown", "burlywood", "cadetblue", "chartreuse",
    "chocolate", "coral", "cornflowerblue", "cornsilk", "crimson", "cyan", "darkblue", "darkcyan",
    "darkgoldenrod", "darkgray", "darkgreen", "darkgrey", "darkkhaki", "darkmagenta",
    "darkolivegreen", "darkorange", "darkorchid", "darkred", "darksalmon", "darkseagreen",
    "darkslateblue", "darkslategray", "darkslategrey", "darkturquoise", "darkviolet", "deeppink",
    "deepskyblue", "dimgray", "dimgrey", "dodgerblue", "firebrick", "floralwhite", "forestgreen",
    "fuchsia", "gainsboro", "ghostwhite", "gold", "goldenrod", "gray", "green", "greenyellow",
    "grey", "honeydew", "hotpink", "indianred", "indigo", "ivory", "khaki", "lavender",
    "lavenderblush", "lawngreen", "lemonchiffon", "lightblue", "lightcoral", "lightcyan",
    "lightgoldenrodyellow", "lightgray", "lightgreen", "lightgrey", "lightpink", "lightsalmon",
    "lightseagreen", "lightskyblue", "lightslategray", "lightslategrey", "lightsteelblue",
    "lightyellow", "lime", "limegreen", "linen", "magenta", "maroon", "mediumaquamarine",
    "mediumblue", "mediumorchid", "mediumpurple", "mediumseagreen", "mediumslateblue",
    "mediumspringgreen", "mediumturquoise", "mediumvioletred", "midnightblue", "mintcream",
    "mistyrose", "moccasin", "navajowhite", "navy", "oldlace", "olive", "olivedrab", "orange",
    "orangered", "orchid", "palegoldenrod", "palegreen", "paleturquoise", "palevioletred",
    "papayawhip", "peachpuff", "peru", "pink", "plum", "powderblue", "purple", "rebeccapurple",
    "red", "rosybrown", "royalblue", "saddlebrown", "salmon", "sandybrown", "seagreen", "seashell",
    "sienna", "silver", "skyblue", "slateblue", "slategray", "slategrey", "snow", "springgreen",
    "steelblue", "tan", "teal", "thistle", "tomato", "transparent", "turquoise", "violet", "wheat",
    "white", "whitesmoke", "yellow", "yellowgreen"]

/-- The colors that only their place settles: that of the text, and those of the system. -/
def placeColors : List String :=
  ["currentcolor", "accentcolor", "accentcolortext", "activetext", "buttonborder", "buttonface",
    "buttontext", "canvas", "canvastext", "field", "fieldtext", "graytext", "highlight",
    "highlighttext", "linktext", "mark", "marktext", "selecteditem", "selecteditemtext",
    "visitedtext", "activeborder", "activecaption", "appworkspace", "background",
    "buttonhighlight", "buttonshadow", "captiontext", "inactiveborder", "inactivecaption",
    "inactivecaptiontext", "infobackground", "infotext", "menu", "menutext", "scrollbar",
    "threeddarkshadow", "threedface", "threedhighlight", "threedlightshadow", "threedshadow",
    "window", "windowframe", "windowtext"]

def isHexColor (name : Text) : Bool :=
  name.all isHexDigit && [3, 4, 6, 8].contains name.length

/-! ## Components -/

/-- How the components of a function are read. -/
structure Components where
  /-- Whether a component may be missing, which `none` says. -/
  missing : Bool
  /-- The names of the components of the color that they are taken from, if there is one. -/
  source : Option (List String)

inductive Component where
  | number
  | percentage
  /-- A name: `none`, or that of a component of the source. -/
  | name
deriving DecidableEq

namespace Components

def names (c : Components) : List String :=
  (if c.missing then ["none"] else []) ++ (c.source.map ("alpha" :: ·)).getD []

def numeric? (c : Components) (ts : List Token) : Option (Component × List Token) :=
  match number? ts with
  | some rest => some (.number, rest)
  | none =>
    match percentage? ts with
    | some rest => some (.percentage, rest)
    | none => (token? (Token.isWordOf c.names) ts).map (.name, ·)

def hue? (c : Components) (ts : List Token) : Option (Component × List Token) :=
  match angle? ts with
  | some rest => some (.number, rest)
  | none =>
    match number? ts with
    | some rest => some (.number, rest)
    | none => (token? (Token.isWordOf c.names) ts).map (.name, ·)

def afterNumeric? (c : Components) (ts : List Token) : Option (List Token) :=
  (c.numeric? ts).map (·.2)

def isOpacity (c : Components) (ts : List Token) : Bool :=
  match token? (Token.isDelim '/') ts with
  | some rest => (c.afterNumeric? rest).any isDone
  | none => isDone ts

def isOpacityByComma (c : Components) (ts : List Token) : Bool :=
  isDone ts ||
    match token? Token.isComma ts with
    | some rest => (c.afterNumeric? rest).any isDone
    | none => false

/-- Whether commas may stand between the components, behind the first one. -/
def allowCommas (c : Components) (first : Component) (rest : List Token) : Bool :=
  c.source.isNone && first ≠ .name && (token? Token.isComma rest).isSome

/-- What follows a component of the same kind as the first one, behind a comma. -/
def alike? (first : Component) (ts : List Token) : Option (List Token) :=
  (token? Token.isComma ts).bind fun rest =>
    match first with
    | .percentage => percentage? rest
    | _ => number? rest

def primaries? (c : Components) (ts : List Token) : Option (Bool × List Token) :=
  (c.numeric? ts).bind fun (first, rest) =>
    if c.allowCommas first rest then ((alike? first rest).bind (alike? first)).map (true, ·)
    else ((c.afterNumeric? rest).bind c.afterNumeric?).map (false, ·)

/-- What follows a hue and two shares, and whether they had commas, which need `commas`. -/
def hueAndShares? (c : Components) (commas : Bool) (ts : List Token) :
    Option (Bool × List Token) :=
  (c.hue? ts).bind fun (first, rest) =>
    if commas && c.allowCommas first rest then
      (((token? Token.isComma rest).bind numberOrPercentage?).bind (token? Token.isComma)).bind
        fun rest => (numberOrPercentage? rest).map (true, ·)
    else ((c.afterNumeric? rest).bind c.afterNumeric?).map (false, ·)

def isEnd (c : Components) (result : Option (Bool × List Token)) : Bool :=
  result.any fun (commas, rest) => if commas then c.isOpacityByComma rest else c.isOpacity rest

end Components

/-! ## Functions -/

def channels : List (String × List String) :=
  [("rgb", ["r", "g", "b"]), ("rgba", ["r", "g", "b"]), ("hsl", ["h", "s", "l"]),
    ("hsla", ["h", "s", "l"]), ("hwb", ["h", "w", "b"]), ("lab", ["l", "a", "b"]),
    ("oklab", ["l", "a", "b"]), ("lch", ["l", "c", "h"]), ("oklch", ["l", "c", "h"])]

def colorSpaces : List (String × List String) :=
  [("srgb", ["r", "g", "b"]), ("srgb-linear", ["r", "g", "b"]), ("display-p3", ["r", "g", "b"]),
    ("a98-rgb", ["r", "g", "b"]), ("prophoto-rgb", ["r", "g", "b"]), ("rec2020", ["r", "g", "b"]),
    ("xyz", ["x", "y", "z"]), ("xyz-d50", ["x", "y", "z"]), ("xyz-d65", ["x", "y", "z"])]

/-- The spaces in which colors are mixed, those with a hue last. -/
def mixingSpaces : List String :=
  ["srgb", "srgb-linear", "lab", "oklab", "xyz", "xyz-d50", "xyz-d65"]

def hueSpaces : List String := ["hsl", "hwb", "lch", "oklch"]

def hueWays : List String := ["shorter", "longer", "increasing", "decreasing", "specified"]

def areComponents (c : Components) (name : Text) (ts : List Token) : Bool :=
  if isWord name ["rgb", "rgba"] then c.isEnd (c.primaries? ts)
  else if isWord name ["hsl", "hsla"] then c.isEnd (c.hueAndShares? true ts)
  else if isWord name ["hwb"] then c.isEnd (c.hueAndShares? false ts)
  else if isWord name ["lch", "oklch"] then
    (((c.afterNumeric? ts).bind c.afterNumeric?).bind c.hue?).any fun (_, rest) => c.isOpacity rest
  else (((c.afterNumeric? ts).bind c.afterNumeric?).bind c.afterNumeric?).any c.isOpacity

def share? (ts : List Token) : Option Float32 × List Token :=
  match skipSpace ts with
  | t :: rest => if t.kind = .percentage then (some t.value, rest) else (none, ts)
  | [] => (none, ts)

/-- How the components of a function are read, and what follows the color that they are taken
from, if there is one. -/
def source? (color : List Token → Option (Bool × List Token)) (missing : Bool) (name : Text)
    (ts : List Token) : Option (Components × List Token) :=
  match token? (Token.isWordOf ["from"]) ts with
  | none => some (⟨missing, none⟩, ts)
  | some rest =>
    match color rest with
    | some (true, rest) => some (⟨missing, some ((named? channels name).getD [])⟩, rest)
    | _ => none

def mixingSpace? (ts : List Token) : Option (List Token) :=
  match skipSpace ts with
  | t :: rest =>
    if t.isWordOf mixingSpaces then token? Token.isComma rest
    else if t.isWordOf hueSpaces then
      match token? (Token.isWordOf hueWays) rest with
      | some rest => (token? (Token.isWordOf ["hue"]) rest).bind (token? Token.isComma)
      | none => token? Token.isComma rest
    else none
  | [] => none

mutual

/-- What follows a color with functions nested no deeper than the given number, and whether it is
settled. -/
def colorWithin? : Nat → List Token → Option (Bool × List Token)
  | 0, _ => none
  | depth + 1, ts =>
    match skipSpace ts with
    | [] => none
    | t :: rest =>
      match t.kind with
      | .idHash name => if isHexColor name then some (true, rest) else none
      | .hash name => if isHexColor name then some (true, rest) else none
      | .ident name =>
        if isWord name namedColors then some (true, rest)
        else if isWord name placeColors then some (false, rest)
        else none
      | .function name =>
        let (inside, after) := takeBlock .round rest
        (colorOf? depth name inside).map (·, after)
      | _ => none

/-- What follows the share of a color in a mixture and the color, with the share, and whether the
color is settled. -/
def ingredient? : Nat → List Token → Option (Option Float32 × Bool × List Token)
  | 0, _ => none
  | depth + 1, ts =>
    let (before, rest) := share? ts
    (colorWithin? depth rest).map fun (settled, rest) =>
      if before.isSome then (before, settled, rest)
      else
        let (behind, rest) := share? rest
        (behind, settled, rest)

/-- Whether a function of colors or of components is a color, and if so whether it is settled. -/
def colorOf? : Nat → Text → List Token → Option Bool
  | 0, _, _ => none
  | depth + 1, name, ts =>
    if isWord name ["light-dark"] then
      match colorWithin? depth ts with
      | none => none
      | some (light, rest) =>
        ((token? Token.isComma rest).bind (colorWithin? depth)).bind fun (dark, rest) =>
          if isDone rest then some (light && dark) else none
    else if isWord name ["color-mix"] then
      (((token? (Token.isWordOf ["in"]) ts).bind mixingSpace?).bind (ingredient? depth)).bind
        fun (share, settled, rest) =>
          ((token? Token.isComma rest).bind (ingredient? depth)).bind
            fun (otherShare, otherSettled, rest) =>
              if settled && otherSettled && isDone rest &&
                !(share.any (· == 0) && otherShare.any (· == 0)) then some true
              else none
    else if isWord name ["color"] then
      (source? (colorWithin? depth) true name ts).bind fun (c, rest) =>
        match skipSpace rest with
        | ⟨.ident space, _⟩ :: rest =>
          (named? colorSpaces space).bind fun names =>
            if areComponents ⟨true, c.source.map fun _ => names⟩ name rest then some true else none
        | _ => none
    else
      (named? channels name).bind fun _ =>
        (source? (colorWithin? depth) true name ts).bind fun (c, rest) =>
          if areComponents c name rest then some true else none

end

/-- A bound on how deep functions are nested in the tokens.  A color of a mixture takes three
steps. -/
def colorDepth (ts : List Token) : Nat := 3 * ts.length + 3

def color? (ts : List Token) : Option (List Token) :=
  (colorWithin? (colorDepth ts) ts).map (·.2)

def isColorFunction (name : Text) (ts : List Token) : Bool :=
  (colorOf? (colorDepth ts) name ts).isSome

/-- The tokens behind the slash of a function whose components are known but whose opacity may be
anything. -/
def openOpacity? (name : Text) (ts : List Token) : Option (List Token) :=
  if !isWord name ["rgb", "hsl"] then none
  else
    (source? (colorWithin? (colorDepth ts)) false name ts).bind fun (c, rest) =>
      let components :=
        if isWord name ["rgb"] then c.primaries? rest else c.hueAndShares? false rest
      components.bind fun (commas, rest) =>
        if commas then none else token? (Token.isDelim '/') rest

end Css

end StyleRef

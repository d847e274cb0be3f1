import StyleRef.Css.Grammar.Image
import StyleRef.Css.Grammar.Value

/-
# The syntax of properties

A property that a sheet describes has a syntax, which a string gives: a star for
every value, or components with bars in between.  A component is a kind of value
in angle brackets or a word for itself; a sign behind it says that the value is a
list, with spaces or with commas in between.

A value has the syntax if it begins as one of the components wants it to, and a
list must be one to its end.
-/

namespace StyleRef

namespace Css

/-! ## Components -/

inductive Multiplicity where
  | one
  | bySpaces
  | byCommas
deriving DecidableEq

/-- A component: what follows a value of it, and how many values it takes. -/
structure SyntaxComponent where
  piece : Piece
  multiplicity : Multiplicity

inductive PropertySyntax where
  | universal
  | components (cs : List SyntaxComponent)

def valueKinds : List (String × Piece) :=
  [("length", length?), ("number", number?), ("percentage", percentage?),
    ("length-percentage", lengthPercentage?), ("string", token? (·.kind = .string)),
    ("color", color?), ("image", image?), ("url", address?), ("integer", integer?),
    ("angle", angle?), ("time", time?), ("resolution", resolution?),
    ("transform-function", transformation?), ("custom-ident", token? Token.isFreeIdent)]

def literal? (word : Text) : Piece := token? (·.kind = .ident word)

/-! ## Reading a syntax -/

def isSyntaxBlank (c : Char) : Bool := c = ' ' || c = '\t'

def isWordStart (c : Char) : Bool := c.isAlpha || c = '_' || 0x80 ≤ c.toNat

def isWordChar (c : Char) : Bool := isWordStart c || c.isDigit || c = '-'

def multiplicity (s : Text) : Multiplicity × Text :=
  match s with
  | '+' :: rest => (.bySpaces, rest)
  | '#' :: rest => (.byCommas, rest)
  | _ => (.one, s)

/-- The component at the front, and what follows it.  A list of transformations takes no sign. -/
def component? (s : Text) : Option (SyntaxComponent × Text) :=
  let signed (piece : Piece) (rest : Text) : SyntaxComponent × Text :=
    let (m, rest) := multiplicity rest
    (⟨piece, m⟩, rest)
  match s.dropWhile isSyntaxBlank with
  | [] => none
  | c :: s =>
    if c = '<' then
      (Text.breakAt? '>' s).bind fun (name, rest) =>
        if isWord name ["transform-list"] then some (⟨transformationList?, .one⟩, rest)
        else (named? valueKinds name).map fun piece => signed piece rest
    else if isWordStart c then
      some (signed (literal? (c :: s.takeWhile isWordChar)) (s.dropWhile isWordChar))
    else none

/-- At most the given number of components, with bars in between. -/
def components? : Nat → Text → Option (List SyntaxComponent)
  | 0, _ => none
  | fuel + 1, s =>
    (component? s).bind fun (c, rest) =>
      match rest.dropWhile isSyntaxBlank with
      | [] => some [c]
      | '|' :: rest => (components? fuel rest).map (c :: ·)
      | _ => none

def PropertySyntax.ofText? (s : Text) : Option PropertySyntax :=
  let s := (((s.dropWhile isSyntaxBlank).reverse).dropWhile isSyntaxBlank).reverse
  if s = ['*'] then some .universal else (components? s.length s).map .components

/-! ## Values of a syntax -/

/-- Whether the tokens are values with nothing in between; each takes a token. -/
def areSpaced (piece : Piece) : Nat → List Token → Bool
  | 0, _ => false
  | fuel + 1, ts => (piece ts).any fun rest => isDone rest || areSpaced piece fuel rest

def areSeparated (piece : Piece) : Nat → List Token → Bool
  | 0, _ => false
  | fuel + 1, ts =>
    (piece ts).any fun rest =>
      isDone rest || (token? Token.isComma rest).any (areSeparated piece fuel)

/-- Whether the tokens begin as the component wants them to, and are a list to their end if it wants
one. -/
def SyntaxComponent.takes (c : SyntaxComponent) (ts : List Token) : Bool :=
  match c.multiplicity with
  | .one => (c.piece ts).isSome
  | .bySpaces => areSpaced c.piece ts.length ts
  | .byCommas => areSeparated c.piece ts.length ts

/-- Whether the tokens are an initial value for the syntax.  It may be missing if the syntax is
universal. -/
def PropertySyntax.takes (s : PropertySyntax) (value : Option (List Token)) : Bool :=
  match s, value with
  | .universal, none => true
  | .universal, some ts => isList ts
  | .components _, none => false
  | .components cs, some ts => cs.any (·.takes ts)

end Css

end StyleRef

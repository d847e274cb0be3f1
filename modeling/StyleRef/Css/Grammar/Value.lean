import StyleRef.Css.Grammar.Color

/-
# The grammar of values

What a value must keep to, whatever its property: every bracket that is closed
was opened, no string and no address is spoilt, and the arguments of `var`,
`env` and `url` begin as they should.  Brackets that the end of the text closes
are closed.  Blocks may be nested up to a depth (`maxNesting`); a color counts as
one token however deep it is, and in colors that are known in part the depth is
counted from their unknown parts.

An annotation of importance may end a value and nothing may follow it.  The value
of `all` is one of a few words.
-/

namespace StyleRef

namespace Css

/-! ## Lists of tokens -/

/-- The parts of an argument list that are values in their own right, and how much deeper than the
function they count as; nothing if the arguments do not begin as they have to.  An argument list is
such a part as a whole unless its function has its own rules. -/
def argumentValues? (name : Text) (ts : List Token) : Option (List (Nat × List Token)) :=
  let fallback (depth : Nat) (ts : List Token) : Option (List (Nat × List Token)) :=
    match skipSpace ts with
    | [] => some []
    | ⟨.comma, _⟩ :: value => some [(depth, value)]
    | _ => none
  if name = "var".toList then
    (token? Token.isDashedIdent ts).bind (fallback 1)
  else if name = "env".toList then
    (token? Token.isFreeIdent ts).bind fun rest =>
      fallback 2 (rest.dropWhile fun t => t.kind = .space || t.isInteger)
  else if name = "url".toList then
    if isSingle (·.kind = .string) ts then some [] else none
  else some [(1, ts)]

/-- The parts of a color function that are values, of which each counts as deep as if it stood by
itself: the two colors of `light-dark`, or the opacity behind a slash. -/
def openColor? (name : Text) (ts : List Token) : Option (List (List Token)) :=
  if isWord name ["light-dark"] then
    match spanTop Token.isComma ts with
    | (light, _ :: dark) => some [light, dark]
    | _ => none
  else (openOpacity? name ts).map ([·])

/-- Whether the tokens, in blocks of the given depth, may be kept as a value.  Each step takes a
token. -/
def isListFrom : Nat → Nat → List Token → Bool
  | 0, _, _ => false
  | fuel + 1, depth, ts =>
    depth ≤ maxNesting &&
      match ts with
      | [] => true
      | t :: rest =>
        match t.kind with
        | .badString => false
        | .badUrl => false
        | .closing _ => false
        | .opening b =>
          let (inside, after) := takeBlock b rest
          isListFrom fuel (depth + 1) inside && isListFrom fuel depth after
        | .function name =>
          let (inside, after) := takeBlock .round rest
          (isColorFunction name inside ||
            match openColor? name inside with
            | some values => values.all (isListFrom fuel 0)
            | none =>
              match argumentValues? name inside with
              | some values => values.all fun (deeper, value) =>
                  isListFrom fuel (depth + deeper) value
              | none => false) &&
            isListFrom fuel depth after
        | _ => isListFrom fuel depth rest

def isList (ts : List Token) : Bool := isListFrom (ts.length + 1) 0 ts

def areEnvironmentArguments (ts : List Token) : Bool :=
  match argumentValues? "env".toList ts with
  | some values => values.all fun (deeper, value) =>
      isListFrom (value.length + 1) (deeper - 1) value
  | none => false

/-! ## Declarations -/

def isWideKeyword (ts : List Token) : Bool := isSingle (Token.isWordOf wideKeywords) ts

/-- Whether the tokens are an annotation of importance or nothing: an exclamation mark and its
word. -/
def isAnnotated (ts : List Token) : Bool :=
  match ts with
  | [] => true
  | t :: rest => t.isDelim '!' && isSingle (Token.isWordOf ["important"]) rest

def makerMarks : List String := ["-webkit-", "-moz-", "-o-", "-ms-"]

def isAll (property : Text) : Bool :=
  isWord property ("all" :: makerMarks.map (· ++ "all"))

def isPlainValueOf (property : Text) (ts : List Token) : Bool :=
  if isAll property then isWideKeyword ts else isList ts

/-- Whether the tokens behind the colon of a declaration are a value of the property.  Outside all
blocks, an exclamation mark begins the annotation; an opening brace has a place only in the value
of a custom property. -/
def isValueOf (property : Text) (ts : List Token) : Bool :=
  let (value, rest) := spanTop
    (fun t => t.isDelim '!' || (!isDashed property && t.opensBody)) ts
  isPlainValueOf property value && isAnnotated rest

def isDeclaration (property : Text) (ts : List Token) : Bool :=
  match skipSpace ts with
  | ⟨.colon, _⟩ :: value => isValueOf property value
  | _ => false

end Css

end StyleRef

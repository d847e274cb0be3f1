import StyleRef.Css.Grammar.Feature

/-
# Queries

The preludes of `@media`, `@container` and `@supports`.  A media query asks for a
type of media, for features, or for both; a list of queries may be empty, and its
last query may break off where more was to come.  A condition on a container may
ask for its styles, which are declarations.  A condition of support may hold
anything in its brackets.
-/

namespace StyleRef

namespace Css

/-! ## Media -/

def mediaRules : GroupRules := ⟨feature mediaFeatures, none⟩

def mediaType? (ts : List Token) : Option (List Token) :=
  match skipSpace ts with
  | t :: rest =>
    if t.isWordOf ["not", "only"] then token? Token.isIdent rest
    else if t.isIdent then some rest
    else none
  | [] => none

/-- Reads a media query: a type of media, with conditions perhaps, or a condition alone. -/
def mediaQuery (ts : List Token) : Reading :=
  match mediaType? ts with
  | none => wholeCondition mediaRules true ts
  | some rest =>
    match token? (Token.isWordOf ["and"]) rest with
    | some rest => wholeCondition mediaRules false rest
    | none => Reading.whole (.ok rest)

/-- Whether the parts between commas are media queries, of which the last one may end too early. -/
def areMediaQueries : List (List Token) → Bool
  | [] => true
  | part :: parts =>
    match mediaQuery part with
    | .ok _ => areMediaQueries parts
    | .error failure => failure = .ended && parts.isEmpty

/-- Whether the tokens are a list of media queries, which may be empty. -/
def isMediaList (ts : List Token) : Bool := areMediaQueries (splitCommas ts)

/-! ## Containers -/

def styleFeature (ts : List Token) : Reading :=
  match skipSpace ts with
  | ⟨.ident property, _⟩ :: rest =>
    match token? (·.kind = .colon) rest with
    | none => .error .refused
    | some rest =>
      let (value, rest) :=
        spanTop (fun t => t.isDelim '!' || (!isAll property && t.isSemicolon)) rest
      if isPlainValueOf property value && isAnnotated rest then .ok [] else .error .refused
  | _ => .error .refused

def style (ts : List Token) : Reading := groupContents ⟨styleFeature, none⟩ ts

def containerRules : GroupRules := ⟨feature containerFeatures, some style⟩

def Token.isContainerName (t : Token) : Bool :=
  t.isFreeIdent && !t.isWordOf ["none", "and", "or", "not"]

def isContainerCondition (ts : List Token) : Bool :=
  (wholeCondition containerRules true (skipIf Token.isContainerName ts)).toBool

/-! ## Support -/

def support? (ts : List Token) : Option (List Token) :=
  match skipSpace ts with
  | [] => none
  | t :: rest =>
    if t.opens? = some .round && isSound (takeBlock .round rest).1 then
      some (takeBlock .round rest).2
    else none

/-- What follows the conditions of support that the word joins to one before, at most the given
number of them. -/
def joinedSupport (word : String) : Nat → List Token → List Token
  | 0, ts => ts
  | fuel + 1, ts =>
    match (token? (Token.isWordOf [word]) ts).bind support? with
    | some rest => joinedSupport word fuel rest
    | none => ts

def supportCondition? (ts : List Token) : Option (List Token) :=
  match token? (Token.isWordOf ["not"]) ts with
  | some rest => support? rest
  | none =>
    (support? ts).map fun rest =>
      let word := if (token? (Token.isWordOf ["and"]) rest).isSome then "and" else "or"
      joinedSupport word rest.length rest

def isSupportCondition (ts : List Token) : Bool := (supportCondition? ts).any isDone

end Css

end StyleRef

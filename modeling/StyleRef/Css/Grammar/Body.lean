import StyleRef.Css.Grammar.Selector
import StyleRef.Css.Grammar.Query
import StyleRef.Css.Grammar.PropertySyntax
import StyleRef.Css.Statement

/-
# The grammar of blocks and of at-rules

A block holds items: at-rules, declarations and rules inside the rule.  Where
declarations are allowed, what begins with an identifier is a declaration if it
can be, up to its semicolon; if it cannot, and with any other beginning, it has
to be a rule, whose selectors end at its block and may hold no semicolon.

An at-rule that is known has a prelude and a block of its own form.  One that is
not may hold anything that fits into its brackets.
-/

namespace StyleRef

namespace Css

/-! ## Items -/

inductive Item where
  | atRule (name : Text) (prelude : List Token) (block : Option (List Token))
  | declaration
  /-- A rule inside the rule; without a block it is no item at all. -/
  | rule (prelude : List Token) (block : Option (List Token))

/-- The rule inside a rule at the front, and what follows it.  Where there may be `declarations`,
a semicolon ends it too. -/
def takeRule (declarations : Bool) (ts : List Token) : Item × List Token :=
  let (prelude, block, after) :=
    takeUntil (fun t => (declarations && t.isSemicolon) || t.opensBody) ts
  (.rule prelude block, after)

def takeItem (declarations : Bool) (t : Token) (rest : List Token) : Item × List Token :=
  match t.kind with
  | .atKeyword name =>
    let (prelude, block, after) := takeAtRule rest
    (.atRule name prelude block, after)
  | .ident property =>
    let (value, after) := spanTop Token.isSemicolon rest
    if declarations && isDeclaration property value then (.declaration, after.drop 1)
    else takeRule declarations (t :: rest)
  | _ => takeRule declarations (t :: rest)

def itemsFrom (declarations : Bool) : Nat → List Token → List Item
  | 0, _ => []
  | fuel + 1, ts =>
    match ts.dropWhile fun t => t.isGap || t.isSemicolon with
    | [] => []
    | t :: rest =>
      let (item, after) := takeItem declarations t rest
      item :: itemsFrom declarations fuel after

/-- The items of a block.  Each takes a token at least. -/
def items (declarations : Bool) (ts : List Token) : List Item :=
  itemsFrom declarations ts.length ts

def isDeclarationList (ts : List Token) : Bool :=
  (items true ts).all fun
    | .declaration => true
    | _ => false

/-! ## Preludes -/

def isDotted : List Token → Bool
  | [⟨.ident _, _⟩] => true
  | ⟨.ident _, _⟩ :: ⟨.delim '.', _⟩ :: rest => isDotted rest
  | _ => false

/-- Whether the tokens are the name of a layer.  White space may stand around it, not in it. -/
def isLayerName (ts : List Token) : Bool := isDotted (withoutOuterSpace ts)

/-- How many names of layers the parts between commas are.  If nothing stands behind the last comma
the names are as good as none. -/
def layerCount? : List (List Token) → Option Nat
  | [] => some 0
  | [part] => if isDone part then some 0 else if isLayerName part then some 1 else none
  | part :: parts =>
    if isLayerName part then
      (layerCount? parts).map fun n => if n = 0 then 0 else n + 1
    else none

def afterImportLayer? (ts : List Token) : Option (List Token) :=
  match skipSpace ts with
  | t :: rest =>
    match t.kind with
    | .ident name => if isWord name ["layer"] then some rest else some ts
    | .function name =>
      if isWord name ["layer"] then
        let (inside, after) := takeBlock .round rest
        if isLayerName inside then some after else none
      else some ts
    | _ => some ts
  | [] => some ts

def isLooseDeclaration (ts : List Token) : Bool :=
  ((token? Token.isIdent ts).bind (token? (·.kind = .colon))).any isSound

def afterImportSupport? (ts : List Token) : Option (List Token) :=
  match skipSpace ts with
  | ⟨.function name, _⟩ :: rest =>
    if isWord name ["supports"] then
      let (inside, after) := takeBlock .round rest
      let inForm :=
        match supportCondition? inside with
        | some rest => isDone rest
        | none => isLooseDeclaration inside
      if inForm then some after else none
    else some ts
  | _ => some ts

def isImportPrelude (ts : List Token) : Bool :=
  (((addressOrString? ts).bind afterImportLayer?).bind afterImportSupport?).any isMediaList

def isNamespacePrelude (ts : List Token) : Bool :=
  (addressOrString? (skipIf Token.isIdent ts)).any isDone

def Token.isKeyframesName (t : Token) : Bool :=
  t.kind = .string || (t.isFreeIdent && !t.isWordOf ["none"])

/-- What follows the pseudo-classes of pages at the front, at most the given number of them.  Each
follows the one before without white space. -/
def afterPageClasses : Nat → List Token → List Token
  | 0, ts => ts
  | fuel + 1, ts =>
    match ts with
    | ⟨.colon, _⟩ :: rest =>
      match token? (Token.isWordOf ["left", "right", "first", "last", "blank"]) rest with
      | some rest => afterPageClasses fuel rest
      | none => ts
    | _ => ts

/-- Whether the tokens select pages: by a name, by pseudo-classes, or by both. -/
def isPageSelector (ts : List Token) : Bool :=
  let ts := skipSpace ts
  !isDone ts && isDone (afterPageClasses ts.length (skipIf Token.isIdent ts))

/-- Whether the tokens are what `@scope` stands before: where it begins and where it ends, each in
brackets, and both optional. -/
def isScopePrelude (ts : List Token) : Bool :=
  let group? (ts : List Token) : Option (List Token) :=
    match skipSpace ts with
    | ⟨.opening .round, _⟩ :: rest => some (takeBlock .round rest).2
    | _ => none
  let rest := (group? ts).getD ts
  match token? (Token.isWordOf ["to"]) rest with
  | some rest => (group? rest).any isDone
  | none => isDone rest

/-- Whether the tokens are the only address that a rule for documents may have: `url-prefix` of
nothing. -/
def isDocumentPrelude (ts : List Token) : Bool :=
  let nothing (ts : List Token) : Bool :=
    isDone ts || isSingle (fun t => t.kind = .string && t.unquoted.isEmpty) ts
  (Piece.function ["url-prefix"] nothing ts).any isDone

def isFamilyName (ts : List Token) : Bool :=
  isSingle (·.kind = .string) ts ||
    (!isDone ts && ts.all fun t => t.kind = .space || t.isIdent)

/-! ## Blocks of their own form -/

def marginBoxes : List String :=
  ["top-left-corner", "top-left", "top-center", "top-right", "top-right-corner", "left-top",
    "left-middle", "left-bottom", "right-top", "right-middle", "right-bottom",
    "bottom-left-corner", "bottom-left", "bottom-center", "bottom-right", "bottom-right-corner"]

def isPageBody (ts : List Token) : Bool :=
  (items true ts).all fun
    | .declaration => true
    | .atRule name prelude (some block) =>
      isWord name marginBoxes && isDone prelude && isDeclarationList block
    | _ => false

/-- The declarations that a block consists of: the name and the tokens behind the colon of each, and
at most the given number of them. -/
def descriptors? : Nat → List Token → Option (List (Text × List Token))
  | 0, _ => some []
  | fuel + 1, ts =>
    match ts.dropWhile fun t => t.isGap || t.isSemicolon with
    | [] => some []
    | ⟨.ident name, _⟩ :: rest =>
      let (item, after) := spanTop Token.isSemicolon rest
      (token? (·.kind = .colon) item).bind fun value =>
        (descriptors? fuel (after.drop 1)).map ((name, value) :: ·)
    | _ => none

structure PropertyDescription where
  valueSyntax : Option PropertySyntax
  /-- Whether the property is inherited, if that is said. -/
  isInherited : Option Bool
  initialValue : Option (List Token)

namespace PropertyDescription

def start : PropertyDescription := ⟨none, none, none⟩

/-- The description with one more descriptor, which takes the place of an earlier one. -/
def add? (d : PropertyDescription) (name : Text) (value : List Token) :
    Option PropertyDescription :=
  if isWord name ["syntax"] then
    match skipSpace value with
    | t :: rest =>
      if t.kind = .string && isDone rest then
        (PropertySyntax.ofText? t.unquoted).map fun s => { d with valueSyntax := some s }
      else none
    | [] => none
  else if isWord name ["inherits"] then
    if isSingle (Token.isWordOf ["true"]) value then some { d with isInherited := some true }
    else if isSingle (Token.isWordOf ["false"]) value then some { d with isInherited := some false }
    else none
  else if isWord name ["initial-value"] then some { d with initialValue := some value }
  else none

/-- Whether all is said that has to be, and the initial value goes with the syntax. -/
def isComplete (d : PropertyDescription) : Bool :=
  d.isInherited.isSome && d.valueSyntax.any fun s => s.takes d.initialValue

end PropertyDescription

/-- Whether a block describes a property: its syntax and whether it is inherited always, and its
initial value unless the syntax is universal. -/
def isPropertyBody (ts : List Token) : Bool :=
  ((descriptors? ts.length ts).bind fun ds =>
    ds.foldlM (fun d (name, value) => d.add? name value) PropertyDescription.start).any
    (·.isComplete)

def fontFeatureRules : List String :=
  ["stylistic", "historical-forms", "styleset", "character-variant", "swash", "ornaments",
    "annotation"]

def areIntegers (ts : List Token) : Bool :=
  !isDone ts && ts.all fun t => t.kind = .space || t.isInteger

def isFontFeatureBody (ts : List Token) : Bool :=
  (items true ts).all fun
    | .atRule name prelude (some block) =>
      isWord name fontFeatureRules && isDone prelude &&
        (descriptors? block.length block).any (·.all fun (_, value) => areIntegers value)
    | _ => false

/-! ## At-rules -/

def keyframesRules : List String :=
  ["keyframes", "-webkit-keyframes", "-moz-keyframes", "-o-keyframes", "-ms-keyframes"]

/-- Whether an at-rule is in form, inside a rule or not.  `rules` checks a block of rules. -/
def isAtRule (rules : List Token → Bool) (inRule : Bool) (name : Text) (prelude : List Token)
    (block : Option (List Token)) : Bool :=
  if isWord name ["media"] then isMediaList prelude && block.any rules
  else if isWord name ["supports"] then isSupportCondition prelude && block.any rules
  else if isWord name ["container"] then isContainerCondition prelude && block.any rules
  else if isWord name ["scope"] then isScopePrelude prelude && block.any rules
  else if isWord name ["starting-style"] then isDone prelude && block.any rules
  else if isWord name ["-moz-document"] then isDocumentPrelude prelude && block.any rules
  else if isWord name ["layer"] then
    match layerCount? (splitCommas prelude), block with
    | none, _ => false
    | some n, none => n ≠ 0 && !inRule
    | some n, some block => n ≤ 1 && rules block
  else if isWord name ["nest"] && inRule then
    isNestingList prelude && block.any rules
  else if isWord name ["font-face", "view-transition"] then
    !inRule && isDone prelude && block.isSome
  else if isWord name ["font-feature-values"] then
    !inRule && (splitCommas prelude).all isFamilyName && block.any isFontFeatureBody
  else if isWord name ["font-palette-values"] then
    !inRule && isSingle Token.isDashedIdent prelude && block.isSome
  else if isWord name keyframesRules then
    !inRule && isSingle Token.isKeyframesName prelude && block.isSome
  else if isWord name ["counter-style"] then
    !inRule && isSingle Token.isFreeIdent prelude && block.any isDeclarationList
  else if isWord name ["viewport", "-ms-viewport"] then
    !inRule && isDone prelude && block.any isDeclarationList
  else if isWord name ["page"] then
    !inRule && (isDone prelude || (splitCommas prelude).all isPageSelector) && block.any isPageBody
  else isList prelude && block.all isList

/-- Whether a block is in form, with blocks nested no deeper than the given number.  Declarations
stand in it if it is a block of a rule, or inside one (`inRule`). -/
def isBodyFrom : Nat → Bool → List Token → Bool
  | 0, _, _ => false
  | depth + 1, inRule, ts =>
    (items inRule ts).all fun
      | .declaration => true
      | .rule prelude (some block) => isSelectorList inRule prelude && isBodyFrom depth true block
      | .rule _ none => false
      | .atRule name prelude block =>
        isAtRule (isBodyFrom depth inRule) inRule name prelude block

/-- Whether a block is in form.  Blocks are nested no deeper than there are tokens. -/
def isBody (inRule : Bool) (ts : List Token) : Bool := isBodyFrom (ts.length + 1) inRule ts

end Css

end StyleRef

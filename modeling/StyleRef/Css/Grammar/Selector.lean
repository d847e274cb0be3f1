import StyleRef.Css.Grammar.Word

/-
# The grammar of selectors

A selector list is a list of selectors between commas; a selector is a list of
compounds between combinators; a compound is a type, then classes, identifiers,
attributes and pseudo-classes and -elements, with nothing in between.  Names of
pseudo-classes and -elements need not be known.

What may follow in a compound depends on the pseudo-elements in it so far; this
is its `Trail`.  An element that is not known leaves no trace, so anything may
follow it.  The arguments of some functions are selectors again; of some of these,
`:is` among them, every argument is accepted.

The trail also says whether the nesting selector `&` was met, in the arguments of
functions too.  It is kept even where a selector turns out not to be in form.
-/

namespace StyleRef

namespace Css

/-! ## The arguments of `:nth-child` and its like -/

def unsigned? (ts : List Token) : Option (List Token) :=
  match skipSpace ts with
  | ⟨.number false true, _⟩ :: rest => some rest
  | _ => none

def offset? (ts : List Token) : Option (List Token) :=
  match skipSpace ts with
  | ⟨.delim '+', _⟩ :: rest => unsigned? rest
  | ⟨.delim '-', _⟩ :: rest => unsigned? rest
  | ⟨.number true true, _⟩ :: rest => some rest
  | _ => some ts

/-- What follows a step whose letters are `unit`, which may hold the offset or its sign. -/
def step? (unit : Text) (ts : List Token) : Option (List Token) :=
  match unit.map Char.toLower with
  | ['n'] => offset? ts
  | ['n', '-'] => unsigned? ts
  | 'n' :: '-' :: digits => if digits.all Char.isDigit then some ts else none
  | _ => none

/-- What follows a pattern such as `2n + 1`, `even` or `3`. -/
def nth? (ts : List Token) : Option (List Token) :=
  match skipSpace ts with
  | ⟨.number _ true, _⟩ :: rest => some rest
  | ⟨.dimension true unit, _⟩ :: rest => step? unit rest
  | ⟨.delim '+', _⟩ :: ⟨.ident name, _⟩ :: rest => step? name rest
  | ⟨.ident name, _⟩ :: rest =>
    if isWord name ["even", "odd"] then some rest
    else
      match name with
      | '-' :: unit => step? unit rest
      | unit => step? unit rest
  | _ => none

/-- Whether the tokens are a pattern, with the selectors it counts behind `of` if it may have
them. -/
def isNth (ofSelectors : Bool) (ts : List Token) : Bool :=
  match nth? ts with
  | none => false
  | some rest =>
    match skipSpace rest with
    | [] => true
    | ⟨.ident name, _⟩ :: _ => ofSelectors && isWord name ["of"]
    | _ => false

/-! ## Names with a namespace, and attributes -/

/-- What follows the name behind a namespace.  At the end of the text a missing name is no name
rather than a fault. -/
def localName? : List Token → Option (Bool × List Token)
  | [] => some (false, [])
  | ⟨.ident _, _⟩ :: rest => some (true, rest)
  | ⟨.delim '*', _⟩ :: rest => some (true, rest)
  | _ => none

def typeName? : List Token → Option (Bool × List Token)
  | ⟨.ident _, _⟩ :: ⟨.delim '|', _⟩ :: rest => localName? rest
  | ⟨.ident _, _⟩ :: rest => some (true, rest)
  | ⟨.delim '*', _⟩ :: ⟨.delim '|', _⟩ :: rest => localName? rest
  | ⟨.delim '*', _⟩ :: rest => some (true, rest)
  | ⟨.delim '|', _⟩ :: rest => localName? rest
  | ts => some (false, ts)

def attributeName? : List Token → Option (List Token)
  | ⟨.ident _, _⟩ :: ⟨.delim '|', _⟩ :: ⟨.ident _, _⟩ :: rest => some rest
  | ⟨.ident _, _⟩ :: ⟨.delim '|', _⟩ :: _ => none
  | ⟨.ident _, _⟩ :: rest => some rest
  | ⟨.delim '*', _⟩ :: ⟨.delim '|', _⟩ :: ⟨.ident _, _⟩ :: rest => some rest
  | ⟨.delim '|', _⟩ :: ⟨.ident _, _⟩ :: rest => some rest
  | _ => none

/-- Whether the tokens end, or end after the letter that says how case counts. -/
def isCaseFlag (ts : List Token) : Bool :=
  match skipSpace ts with
  | [] => true
  | ⟨.ident name, _⟩ :: rest => isWord name ["i", "s"] && (skipSpace rest).isEmpty
  | _ => false

def isAttributeValue (ts : List Token) : Bool :=
  match skipSpace ts with
  | ⟨.ident _, _⟩ :: rest => isCaseFlag rest
  | ⟨.string, _⟩ :: rest => isCaseFlag rest
  | _ => false

def isAttribute (ts : List Token) : Bool :=
  match attributeName? (skipSpace ts) with
  | none => false
  | some rest =>
    match skipSpace rest with
    | [] => true
    | ⟨.delim '=', _⟩ :: value => isAttributeValue value
    | ⟨.matcher, _⟩ :: value => isAttributeValue value
    | _ => false

/-! ## Pseudo-classes and pseudo-elements -/

/-- What came in a selector so far. -/
structure Trail where
  /-- The selector is an argument in which no pseudo-element may stand. -/
  barred : Bool
  /-- The selector is an argument in which no combinator may stand. -/
  unjoined : Bool
  slotted : Bool
  part : Bool
  /-- An element that is known; only states of user action may follow. -/
  known : Bool
  scrollbar : Bool
  /-- An element that is a part of the transition of a view. -/
  transition : Bool
  /-- The nesting selector. -/
  nesting : Bool

namespace Trail

def start : Trail := ⟨false, false, false, false, false, false, false, false⟩

def passed (t : Trail) : Bool := t.slotted || t.part || t.known

def allowsElement (t : Trail) : Bool := !t.known && !t.barred

/-- The trail at the start of an argument in which no pseudo-element may stand. -/
def bar (t : Trail) : Trail := { t with barred := true }

/-- The trail at the start of an argument that is a compound. -/
def single (t : Trail) : Trail := { t.bar with unjoined := true }

def met (t : Trail) (nesting : Bool) : Trail := { t with nesting := t.nesting || nesting }

end Trail

structure Finding where
  inForm : Bool
  /-- The nesting selector was met. -/
  nesting : Bool

namespace Finding

def all (findings : List Finding) : Finding := ⟨findings.all (·.inForm), findings.any (·.nesting)⟩

end Finding

def singleColonElements : List String := ["before", "after", "first-line", "first-letter"]

def elementsOfSlotted : List String :=
  ["before", "after", "marker", "placeholder", "-webkit-input-placeholder", "-moz-placeholder",
    "-ms-input-placeholder", "file-selector-button", "-webkit-file-upload-button", "-ms-browse"]

def scrollbarElements : List String :=
  ["-webkit-scrollbar", "-webkit-scrollbar-button", "-webkit-scrollbar-track",
    "-webkit-scrollbar-track-piece", "-webkit-scrollbar-thumb", "-webkit-scrollbar-corner",
    "-webkit-resizer"]

def knownElements : List String :=
  singleColonElements ++ elementsOfSlotted ++ scrollbarElements ++
    ["cue", "cue-region", "selection", "-moz-selection", "backdrop", "-webkit-backdrop",
      "view-transition"]

/-- The pseudo-classes of scrollbars, which have a place nowhere else. -/
def scrollbarClasses : List String :=
  ["horizontal", "vertical", "decrement", "increment", "start", "end", "double-button",
    "single-button", "no-button", "corner-present", "window-inactive"]

def userActions : List String := ["hover", "active", "focus", "focus-visible", "focus-within"]

def isClassAfter (trail : Trail) (name : Text) : Bool :=
  !trail.slotted &&
    if trail.transition && isWord name ["only-child"] then true
    else if trail.scrollbar then
      isWord name (["enabled", "disabled", "hover", "active"] ++ scrollbarClasses)
    else if trail.known then isWord name userActions
    else !isWord name scrollbarClasses

def afterElement? (trail : Trail) (name : Text) : Option Trail :=
  if !trail.allowsElement || (trail.slotted && !isWord name elementsOfSlotted) then none
  else if isWord name knownElements then
    some { trail with
      known := true
      scrollbar := trail.scrollbar || isWord name scrollbarElements }
  else some trail

/-- How the argument of a function is checked when it is a selector or a list of selectors, which
may be relative. -/
inductive ArgumentForm where
  | list
  | relativeList
  | single

abbrev ArgumentCheck := ArgumentForm → Trail → List Token → Finding

def isPartList (ts : List Token) : Bool :=
  ts.any Token.isIdent && ts.all fun t => t.isIdent || t.kind = .space

def isLanguageList (ts : List Token) : Bool :=
  (splitCommas ts).all (isSingle fun t => t.isIdent || t.kind = .string)

def areClasses : List Token → Bool
  | [] => true
  | ⟨.delim '.', _⟩ :: ⟨.ident _, _⟩ :: rest => areClasses rest
  | _ => false

/-- What names a part of the transition of a view: a name or a star, and classes, with nothing in
between. -/
def isTransitionPart (ts : List Token) : Bool :=
  match skipSpace ts with
  | t :: rest => areClasses (if t.isDelim '*' || t.isFreeIdent then rest else t :: rest)
  | [] => true

def afterFunction? (check : ArgumentCheck) (trail : Trail) (name : Text) (ts : List Token) :
    Option Trail :=
  let strict (finding : Finding) : Option Trail :=
    if finding.inForm then some (trail.met finding.nesting) else none
  let plain (inForm : Bool) : Option Trail := if !trail.passed && inForm then some trail else none
  if isWord name ["nth-child", "nth-last-child"] then plain (isNth true ts)
  else if isWord name ["nth-of-type", "nth-last-of-type", "nth-col", "nth-last-col"] then
    plain (isNth false ts)
  else if isWord name ["is", "where", "-webkit-any", "-moz-any"] then
    some (trail.met (check .list trail.bar ts).nesting)
  else if isWord name ["has"] then some (trail.met (check .relativeList trail ts).nesting)
  else if isWord name ["not"] then strict (check .list trail.bar ts)
  else if isWord name ["host"] then
    if trail.passed then none else strict (check .single trail.single ts)
  else if isWord name ["lang"] then plain (isLanguageList ts)
  else if isWord name ["dir"] then plain (isSingle (Token.isWordOf ["ltr", "rtl"]) ts)
  else if isWord name ["active-view-transition-type"] then
    plain ((splitCommas ts).all (isSingle Token.isFreeIdent))
  else plain (fits (some maxNesting) [] ts)

def afterElementFunction? (check : ArgumentCheck) (trail : Trail) (name : Text)
    (ts : List Token) : Option Trail :=
  let known : Trail := { trail with known := true }
  if !trail.allowsElement then none
  else if isWord name ["part"] then
    if !trail.passed && isPartList ts then some { trail with part := true } else none
  else if isWord name ["slotted"] then
    let finding := check .single trail.single ts
    if !trail.passed && finding.inForm then
      some { trail.met finding.nesting with slotted := true }
    else none
  else if trail.slotted then none
  else if isWord name ["cue", "cue-region"] then
    if (check .single .start ts).inForm then some known else none
  else if isWord name ["view-transition-group", "view-transition-image-pair",
      "view-transition-old", "view-transition-new"] then
    if isTransitionPart ts then some { known with transition := true } else none
  else if fits (some maxNesting) [] ts then some trail
  else none

/-! ## Compounds -/

inductive Simple where
  /-- A simple selector, with the trail and the tokens behind it. -/
  | found (trail : Trail) (rest : List Token)
  | nothing
  | invalid

namespace Simple

def ofTrail? (trail : Option Trail) (rest : List Token) : Simple :=
  match trail with
  | some trail => .found trail rest
  | none => .invalid

end Simple

def pseudo (check : ArgumentCheck) (double : Bool) (trail : Trail) : List Token → Simple
  | ⟨.ident name, _⟩ :: rest =>
    if double || isWord name singleColonElements then .ofTrail? (afterElement? trail name) rest
    else if isClassAfter trail name then .found trail rest
    else .invalid
  | ⟨.function name, _⟩ :: rest =>
    let (arguments, rest) := takeBlock .round rest
    if double || isWord name singleColonElements then
      .ofTrail? (afterElementFunction? check trail name arguments) rest
    else .ofTrail? (afterFunction? check trail name arguments) rest
  | _ => .invalid

def simple (check : ArgumentCheck) (trail : Trail) : List Token → Simple
  | ⟨.idHash _, _⟩ :: rest => if trail.passed then .invalid else .found trail rest
  | ⟨.delim '.', _⟩ :: ⟨.ident _, _⟩ :: rest =>
    if trail.passed then .invalid else .found trail rest
  | ⟨.delim '.', _⟩ :: _ => .invalid
  | ⟨.delim '&', _⟩ :: rest => .found (trail.met true) rest
  | ⟨.opening .square, _⟩ :: rest =>
    let (inside, rest) := takeBlock .square rest
    if trail.passed || !isAttribute inside then .invalid else .found trail rest
  | ⟨.colon, _⟩ :: ⟨.colon, _⟩ :: rest => pseudo check true trail rest
  | ⟨.colon, _⟩ :: rest => pseudo check false trail rest
  | _ => .nothing

inductive Compound where
  /-- A compound, with the trail and the tokens behind it. -/
  | found (trail : Trail) (rest : List Token)
  /-- There is none, or one that is not in form; the trail up to there. -/
  | invalid (trail : Trail)

/-- The simple selectors at the front, at most the given number of them; `begun` says that the
compound has something in it already. -/
def simples (check : ArgumentCheck) : Nat → Bool → Trail → List Token → Compound
  | 0, begun, trail, ts => if begun then .found trail ts else .invalid trail
  | fuel + 1, begun, trail, ts =>
    match simple check trail ts with
    | .invalid => .invalid trail
    | .nothing => if begun then .found trail ts else .invalid trail
    | .found trail rest => simples check fuel true trail rest

def compound (check : ArgumentCheck) (trail : Trail) (ts : List Token) : Compound :=
  let ts := skipSpace ts
  let nesting := ts.head?.any (Token.isDelim '&')
  let trail := trail.met nesting
  match typeName? (if nesting then ts.drop 1 else ts) with
  | none => .invalid trail
  | some (named, rest) =>
    if named && trail.passed then .invalid trail
    else simples check rest.length (nesting || named) trail rest

/-! ## Selectors and lists of them -/

def Token.isCombinator (t : Token) : Bool := t.isDelim '>' || t.isDelim '+' || t.isDelim '~'

/-- Whether the tokens are a selector of at most the given number of compounds. -/
def selectorFrom (check : ArgumentCheck) : Nat → Trail → List Token → Finding
  | 0, trail, _ => ⟨false, trail.nesting⟩
  | fuel + 1, trail, ts =>
    match compound check trail ts with
    | .invalid trail => ⟨false, trail.nesting⟩
    | .found trail rest =>
      match skipSpace rest with
      | [] => ⟨true, trail.nesting⟩
      | t :: next =>
        if trail.passed || trail.unjoined then ⟨false, trail.nesting⟩
        else if t.isCombinator then selectorFrom check fuel trail next
        else if rest.head?.any (·.kind = .space) then selectorFrom check fuel trail (t :: next)
        else ⟨false, trail.nesting⟩

/-- Whether the tokens are a selector; a compound takes a token at least. -/
def selector (check : ArgumentCheck) (trail : Trail) (ts : List Token) : Finding :=
  selectorFrom check (ts.length + 1) trail ts

def relativeSelector (check : ArgumentCheck) (trail : Trail) (ts : List Token) : Finding :=
  selector check trail (skipIf Token.isCombinator ts)

/-- The check of arguments that are nested no deeper than the given number. -/
def argumentCheck : Nat → ArgumentCheck
  | 0 => fun _ trail _ => ⟨false, trail.nesting⟩
  | depth + 1 => fun argument trail ts =>
    match argument with
    | .list => .all ((splitCommas ts).map (selector (argumentCheck depth) trail))
    | .relativeList => .all ((splitCommas ts).map (relativeSelector (argumentCheck depth) trail))
    | .single => selector (argumentCheck depth) trail ts

/-- Whether the tokens are a list of selectors.  Every selector may be `relative` to what encloses
the rule, and then has a leading combinator or none. -/
def isSelectorList (relative : Bool) (ts : List Token) : Bool :=
  (argumentCheck (ts.length + 1) (if relative then .relativeList else .list) .start ts).inForm

def isNestingList (ts : List Token) : Bool :=
  (splitCommas ts).all fun item =>
    let finding := argumentCheck (ts.length + 1) .single .start item
    finding.inForm && finding.nesting

end Css

end StyleRef

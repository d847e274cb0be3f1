import StyleRef.Text.Blank

/-
# Style sheets

A style sheet is a list of rules in document order.  A rule has the text of its
selector list, its declarations in source order and, when it stands in an
`@media` block, the query of that block.  Texts are kept as they were written.

A declaration is named by its *place*: the number of its rule and its number in
that rule.  A place can lie outside a sheet, so what is read at a place is an
`Option`, and what is written outside changes nothing.
-/

namespace StyleRef

structure Declaration where
  property : Text
  value : Text
  important : Bool
deriving DecidableEq, Inhabited

structure Rule where
  /-- The selector list as written; it may name several selectors. -/
  selector : Text
  /-- The declarations in source order. -/
  declarations : List Declaration
  /-- The query of the `@media` block that the rule stands in. -/
  media : Option Text
deriving DecidableEq, Inhabited

structure Stylesheet where
  rules : List Rule
deriving DecidableEq, Inhabited

/-- The place of a declaration: rule number, then number in the rule, both from zero. -/
structure Place where
  rule : Nat
  declaration : Nat
deriving DecidableEq, Inhabited

namespace Rule

/-- The selectors that the list of a rule names: split at every comma, each one trimmed. -/
def selectors (r : Rule) : List Text := (r.selector.splitOn ',').map Text.trim

def valueOf? (r : Rule) (property : Text) : Option Text :=
  (r.declarations.find? (·.property = property)).map (·.value)

def lastOf? (r : Rule) (property : Text) : Option Nat :=
  (r.declarations.zipIdx.findRev? (·.1.property = property)).map (·.2)

/-- The properties that a rule declares, each at its first appearance. -/
def properties (r : Rule) : List Text := (r.declarations.map (·.property)).eraseDups

end Rule

namespace Stylesheet

def empty : Stylesheet := ⟨[]⟩

/-- Adds a rule after all others: no query, and no declaration of it is important. -/
def addRule (s : Stylesheet) (selector : Text) (declarations : List (Text × Text)) : Stylesheet :=
  ⟨s.rules ++ [⟨selector, declarations.map fun (p, v) => ⟨p, v, false⟩, none⟩]⟩

def declaration? (s : Stylesheet) (p : Place) : Option Declaration :=
  s.rules[p.rule]?.bind fun r => r.declarations[p.declaration]?

def value? (s : Stylesheet) (p : Place) : Option Text := (s.declaration? p).map (·.value)

def owner? (s : Stylesheet) (p : Place) : Option Rule := s.rules[p.rule]?

def declarations (s : Stylesheet) : List (Place × Declaration) :=
  s.rules.zipIdx.flatMap fun (r, i) => r.declarations.zipIdx.map fun (d, j) => (⟨i, j⟩, d)

/-- The value of the first declaration of `property` in the first rule whose selector list is
`selector` as written.  Later rules of that selector are not looked at. -/
def valueOf? (s : Stylesheet) (selector property : Text) : Option Text :=
  (s.rules.find? (·.selector = selector)).bind (·.valueOf? property)

/-! ## Editing -/

/-- Changes the declaration at a place.  Where the sheet has none nothing changes; who has to find one
asks before (`Stylesheet.substituteAll`). -/
def modify (s : Stylesheet) (p : Place) (f : Declaration → Declaration) : Stylesheet :=
  ⟨s.rules.modify p.rule fun r => { r with declarations := r.declarations.modify p.declaration f }⟩

def modifyValue (s : Stylesheet) (p : Place) (f : Text → Text) : Stylesheet :=
  s.modify p fun d => { d with value := f d.value }

def setMedia (s : Stylesheet) (i : Nat) (media : Option Text) : Stylesheet :=
  ⟨s.rules.modify i fun r => { r with media := media }⟩

/-- Reading after a change: the changed place has the new declaration, all others the old. -/
theorem declaration?_modify (s : Stylesheet) (p q : Place) (f : Declaration → Declaration) :
    (s.modify p f).declaration? q =
      if p = q then (s.declaration? q).map f else s.declaration? q := by
  obtain ⟨i, j⟩ := p
  obtain ⟨i', j'⟩ := q
  simp only [declaration?, modify, List.getElem?_modify, Place.mk.injEq]
  cases s.rules[i']? with
  | none => simp
  | some r =>
    by_cases hi : i = i'
    · by_cases hj : j = j' <;> simp [hi, hj]
    · simp [hi]

end Stylesheet

end StyleRef

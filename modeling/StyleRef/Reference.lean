import StyleRef.Text.Search
import StyleRef.Sheet.Basic

/-
# References

A value may ask for the value of a property under another selector:
`ref(selector, property)`, or `ref(selector, property, fallback)` with a text to
use when there is none.  Such a token is not read by the rules of style sheets
but by three rules of its own.

* Its selector part runs to the first comma, whatever stands in between.
* It ends at the first closing bracket after that comma.
* In between, its property part runs to the next comma, if there is one, and
  the rest is its fallback part.

Only the first place at which `ref(` stands counts.  If no token starts there,
the value has none: a comma and a closing bracket that would serve a later place
serve the first place too.
-/

namespace StyleRef

def tokenStart : Text := ['r', 'e', 'f', '(']

/-- The character that stands for the selector list of the rule that a token is in. -/
def ownSelector : Char := '&'

/-! ## Tokens -/

/-- The three parts of a token as written, blanks included. -/
structure RefToken where
  selector : Text
  property : Text
  fallback : Option Text
deriving DecidableEq

namespace RefToken

def tail (t : RefToken) : Text :=
  t.selector ++ ',' :: t.property ++
    match t.fallback with
    | none => [')']
    | some f => ',' :: f ++ [')']

def text (t : RefToken) : Text := tokenStart ++ t.tail

/-- The token whose selector part starts the text, and the text after it. -/
def read? (s : Text) : Option (RefToken × Text) :=
  (Text.breakAt? ',' s).bind fun (selector, s) =>
    (Text.breakAt? ')' s).map fun (inner, rest) =>
      match Text.breakAt? ',' inner with
      | none => (⟨selector, inner, none⟩, rest)
      | some (property, fallback) => (⟨selector, property, some fallback⟩, rest)

def find? (value : Text) : Option (Text × RefToken × Text) :=
  (Text.cut? tokenStart value).bind fun (before, s) =>
    (read? s).map fun (t, after) => (before, t, after)

theorem eq_of_read? {s rest : Text} {t : RefToken} (h : read? s = some (t, rest)) :
    s = t.tail ++ rest := by
  simp only [read?, Option.bind_eq_some_iff, Option.map_eq_some_iff, Prod.exists] at h
  obtain ⟨a, s₁, h₁, inner, s₂, h₂, h₃⟩ := h
  obtain ⟨rfl, -⟩ := Text.breakAt?_eq_some_iff.mp h₁
  obtain ⟨rfl, -⟩ := Text.breakAt?_eq_some_iff.mp h₂
  split at h₃
  · obtain ⟨rfl, rfl⟩ := Prod.mk.inj h₃
    simp [tail]
  · next b c h₄ =>
    obtain ⟨rfl, rfl⟩ := Prod.mk.inj h₃
    obtain ⟨rfl, -⟩ := Text.breakAt?_eq_some_iff.mp h₄
    simp [tail]

/-- What stands before the token, the token, and what stands after it make up the value. -/
theorem eq_of_find? {value before after : Text} {t : RefToken}
    (h : find? value = some (before, t, after)) : value = before ++ t.text ++ after := by
  simp only [find?, Option.bind_eq_some_iff, Option.map_eq_some_iff, Prod.exists,
    Prod.mk.injEq] at h
  obtain ⟨b, s, hcut, t', rest, hread, rfl, rfl, rfl⟩ := h
  rw [Text.eq_of_cut? hcut, eq_of_read? hread]
  simp [text]

end RefToken

/-! ## References -/

structure Target where
  selector : Text
  property : Text
deriving DecidableEq, Inhabited

/-- The target in the form of a token without fallback. -/
def Target.render (t : Target) : Text :=
  tokenStart ++ t.selector ++ ", ".toList ++ t.property ++ ")".toList

structure Reference where
  target : Target
  /-- The text to use when the target has no value. -/
  fallback : Option Text
  /-- The token as written. -/
  token : Text
  /-- The declaration that holds the token. -/
  place : Place
deriving DecidableEq

/-- The reference that a token makes in a rule with the selector list `owner`: its parts are
trimmed, the placeholder in the selector part stands for `owner`, and a fallback part of blanks
counts as none. -/
def RefToken.reference (t : RefToken) (owner : Text) (place : Place) : Reference where
  target := ⟨Text.expand ownSelector owner (Text.trim t.selector), Text.trim t.property⟩
  fallback := (t.fallback.map Text.trim).filter (· ≠ [])
  token := t.text
  place := place

def Reference.ofValue? (value owner : Text) (place : Place) : Option Reference :=
  (RefToken.find? value).map fun (_, t, _) => t.reference owner place

def Stylesheet.references (s : Stylesheet) : List Reference :=
  s.declarations.filterMap fun (p, d) =>
    (s.owner? p).bind fun r => Reference.ofValue? d.value r.selector p

end StyleRef

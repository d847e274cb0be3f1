import StyleRef.Table
import StyleRef.Reference

/-
# The index of references

References are grouped by what they ask for: first by selector, then by
property, each in the order in which it was first asked for.  Beside its groups
an entry keeps the fallbacks that were given, the last one for the selector as a
whole and the last one for each property.  The scope of an index says which of
the two answers.
-/

namespace StyleRef

/-- How far a fallback reaches. -/
inductive Scope where
  /-- The last fallback given for a selector serves every property asked of it. -/
  | selector
  /-- Each property of a selector has the last fallback that was given for it. -/
  | property
deriving DecidableEq, Inhabited

structure RefIndex.Entry where
  /-- The references by property. -/
  groups : Table Text (List Reference)
  /-- The last fallback given with any of them. -/
  lastFallback : Option Text
  /-- The last fallback given with those of a property. -/
  fallbacks : Table Text Text
deriving DecidableEq

/-- References by selector, then by property. -/
structure RefIndex where
  scope : Scope
  entries : Table Text RefIndex.Entry
deriving DecidableEq

namespace RefIndex

def Entry.empty : Entry := ⟨.empty, none, .empty⟩

def Entry.register (e : Entry) (r : Reference) : Entry where
  groups := e.groups.update r.target.property fun old => old.getD [] ++ [r]
  lastFallback := r.fallback.or e.lastFallback
  fallbacks :=
    match r.fallback with
    | none => e.fallbacks
    | some f => e.fallbacks.set r.target.property f

def empty (scope : Scope) : RefIndex := ⟨scope, .empty⟩

def register (x : RefIndex) (r : Reference) : RefIndex :=
  { x with
    entries := x.entries.update r.target.selector fun old => (old.getD .empty).register r }

def ofReferences (scope : Scope) (rs : List Reference) : RefIndex :=
  rs.foldl register (empty scope)

def ofSheet (scope : Scope) (s : Stylesheet) : RefIndex := ofReferences scope s.references

/-! ## Looking things up -/

def isEmpty (x : RefIndex) : Bool := x.entries.entries.isEmpty

def contains (x : RefIndex) (selector : Text) : Bool := x.entries.contains selector

/-- The selectors of which something was asked, in the order of the first time. -/
def selectors (x : RefIndex) : List Text := x.entries.keys

def group? (x : RefIndex) (t : Target) : Option (List Reference) :=
  (x.entries.get? t.selector).bind fun e => e.groups.get? t.property

/-- The fallback of a target.  In the scope of selectors every property of a selector has one as
soon as a reference to the selector gives one. -/
def fallback? (x : RefIndex) (t : Target) : Option Text :=
  (x.entries.get? t.selector).bind fun e =>
    match x.scope with
    | .selector => e.lastFallback
    | .property => e.fallbacks.get? t.property

def isCovered (x : RefIndex) (selector : Text) : Bool :=
  match x.entries.get? selector with
  | none => false
  | some e => e.groups.keys.all fun p => (x.fallback? ⟨selector, p⟩).isSome

/-- The targets with their references: by selector, then by property. -/
def groups (x : RefIndex) : List (Target × List Reference) :=
  x.entries.entries.flatMap fun (s, e) => e.groups.entries.map fun (p, rs) => (⟨s, p⟩, rs)

def targets (x : RefIndex) : List Target := x.groups.map (·.1)

def references (x : RefIndex) : List Reference := x.groups.flatMap (·.2)

def askedAt? (x : RefIndex) (p : Place) : Option Target :=
  (x.references.findRev? (·.place = p)).map (·.target)

/-! ## What a registration changes -/

@[simp] theorem scope_register (x : RefIndex) (r : Reference) :
    (x.register r).scope = x.scope := rfl

theorem group?_register (x : RefIndex) (r : Reference) (t : Target) :
    (x.register r).group? t =
      if t = r.target then some ((x.group? t).getD [] ++ [r]) else x.group? t := by
  obtain ⟨s, p⟩ := t
  by_cases hs : s = r.target.selector
  · subst hs
    cases he : x.entries.get? r.target.selector with
    | none =>
      by_cases hp : p = r.target.property
      · subst hp; simp [register, group?, Entry.register, Entry.empty, he]
      · have : (⟨r.target.selector, p⟩ : Target) ≠ r.target := fun h => hp (by rw [← h])
        simp [register, group?, Entry.register, Entry.empty, he, this, hp]
    | some e =>
      by_cases hp : p = r.target.property
      · subst hp; simp [register, group?, Entry.register, he]
      · have : (⟨r.target.selector, p⟩ : Target) ≠ r.target := fun h => hp (by rw [← h])
        simp [register, group?, Entry.register, he, this, hp]
  · have : (⟨s, p⟩ : Target) ≠ r.target := fun h => hs (by rw [← h])
    simp [register, group?, hs, this]

end RefIndex

end StyleRef

import StyleRef.Reference

/-
# Faults

What can go wrong, by cause.  The wording of each cause is given once, in
`Fault.message`.
-/

namespace StyleRef

/-- What a resolution may look for in vain. -/
inductive Sought where
  /-- The declaration at a place, to be read or written. -/
  | place (p : Place)
  /-- The supply that a target is bound to. -/
  | binding (t : Target)
deriving DecidableEq

inductive Fault where
  /-- References ask for selectors that no rule has and no fallback serves. -/
  | unresolved (selectors : List Text)
  /-- References ask for one another in a circle; the chain ends with the target it begins with. -/
  | cyclic (chain : List Text)
  /-- The text is no style sheet. -/
  | parse (reason : Text)
  /-- A file could not be read or written. -/
  | io (reason : Text)
  /-- A place outside the style sheet was to be read or written, or a target was bound to nothing. -/
  | noDeclaration (sought : Sought)
deriving DecidableEq

def quoted (s : Text) : Text := '"' :: s ++ ['"']

def Fault.message : Fault → Text
  | .unresolved selectors =>
    "Unresolved selectors: ".toList ++ List.intercalate ", ".toList (selectors.map quoted)
  | .cyclic chain => "Cyclic reference: ".toList ++ List.intercalate " -> ".toList chain
  | .parse reason => "Failed to parse stylesheet: ".toList ++ reason
  | .io reason => reason
  | .noDeclaration (.place p) => s!"No declaration {p.declaration} in rule {p.rule}".toList
  | .noDeclaration (.binding t) => "No declaration for ".toList ++ t.render

end StyleRef

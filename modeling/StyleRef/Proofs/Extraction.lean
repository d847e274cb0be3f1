import StyleRef.Proofs.Index
import StyleRef.Proofs.TokenGrammar

/-
# Extraction goes over each declaration once

The references of a sheet are taken from the declarations in document order.
So a place names at most one of them, and the reference at a place can be looked
up without the list: it is what the value there says in the rule that it stands
in.  The two views are joined here, and later modules use whichever is at hand.

The index of a sheet scatters the references over groups.  It only sorts them:
each is in one group, and a group is a part of the list, so it keeps the order of
the document (`RefIndex.ofSheet_records`).
-/

namespace StyleRef

/-- The first place stands before the second in the document. -/
def Place.Before (p q : Place) : Prop :=
  p.rule < q.rule ∨ p.rule = q.rule ∧ p.declaration < q.declaration

theorem Place.Before.ne {p q : Place} (h : p.Before q) : p ≠ q := by
  rintro rfl
  rcases h with h | ⟨-, h⟩ <;> exact Nat.lt_irrefl _ h

namespace Stylesheet

/-! ## The declarations in document order -/

/-- A declaration is listed with its place exactly when it is found there. -/
theorem mem_declarations {s : Stylesheet} {p : Place} {d : Declaration} :
    (p, d) ∈ s.declarations ↔ s.declaration? p = some d := by
  obtain ⟨i, j⟩ := p
  simp only [declarations, declaration?, List.mem_flatMap, List.mem_map, Prod.exists,
    List.mem_zipIdx_iff_getElem?, Prod.mk.injEq, Place.mk.injEq, Option.bind_eq_some_iff]
  constructor
  · rintro ⟨r, i', hr, d', j', hd, ⟨rfl, rfl⟩, rfl⟩
    exact ⟨r, hr, hd⟩
  · rintro ⟨r, hr, hd⟩
    exact ⟨r, i, hr, d, j, hd, ⟨rfl, rfl⟩, rfl⟩

/-- The values of a sheet are those at its places. -/
theorem forall_value?_iff {s : Stylesheet} {P : Text → Prop} :
    (∀ p v, s.value? p = some v → P v) ↔ ∀ r ∈ s.rules, ∀ d ∈ r.declarations, P d.value := by
  simp only [value?, declaration?, Option.map_eq_some_iff, Option.bind_eq_some_iff]
  constructor
  · intro h r hr d hd
    obtain ⟨i, hi⟩ := List.getElem?_of_mem hr
    obtain ⟨j, hj⟩ := List.getElem?_of_mem hd
    exact h ⟨i, j⟩ d.value ⟨d, ⟨r, hi, hj⟩, rfl⟩
  · rintro h p v ⟨d, ⟨r, hr, hd⟩, rfl⟩
    exact h r (List.mem_of_getElem? hr) d (List.mem_of_getElem? hd)

theorem pairwise_zipIdx {α : Type} (l : List α) : l.zipIdx.Pairwise fun a b => a.2 < b.2 := by
  have h : (l.zipIdx.map Prod.snd).Pairwise (· < ·) := by
    rw [List.zipIdx_map_snd]
    exact List.pairwise_lt_range'
  exact List.pairwise_map.mp h

theorem pairwise_declarations (s : Stylesheet) :
    s.declarations.Pairwise fun a b => a.1.Before b.1 := by
  refine List.pairwise_flatMap.mpr ⟨fun ri _ => ?_, ?_⟩
  · -- inside a rule by the number of the declaration
    exact List.pairwise_map.mpr ((pairwise_zipIdx _).imp fun h => Or.inr ⟨rfl, h⟩)
  · refine (pairwise_zipIdx _).imp fun {a b} h => ?_
    intro x hx y hy
    obtain ⟨dx, -, rfl⟩ := List.mem_map.mp hx
    obtain ⟨dy, -, rfl⟩ := List.mem_map.mp hy
    exact Or.inl h

/-! ## The references -/

/-- The reference that the declaration at a place holds. -/
def reference? (s : Stylesheet) (p : Place) : Option Reference :=
  (s.declaration? p).bind fun d =>
    (s.owner? p).bind fun r => Reference.ofValue? d.value r.selector p

end Stylesheet

/-- A fallback stands in the fallback part of its token. -/
theorem RefToken.exists_of_fallback_reference {t : RefToken} {owner f : Text} {p : Place}
    (h : (t.reference owner p).fallback = some f) : ∃ a b, t.fallback = some (a ++ f ++ b) := by
  simp only [RefToken.reference, Option.filter_eq_some_iff, Option.map_eq_some_iff] at h
  obtain ⟨⟨g, hg, rfl⟩, -⟩ := h
  obtain ⟨a, b, hab, -⟩ := Text.trim_between g
  exact ⟨a, b, hg.trans (congrArg some hab)⟩

theorem Reference.place_of_ofValue? {value owner : Text} {p : Place} {r : Reference}
    (h : ofValue? value owner p = some r) : r.place = p := by
  simp only [ofValue?, Option.map_eq_some_iff, Prod.exists] at h
  obtain ⟨_, t, _, -, rfl⟩ := h
  rfl

namespace Stylesheet

theorem place_of_reference? {s : Stylesheet} {p : Place} {r : Reference}
    (h : s.reference? p = some r) : r.place = p := by
  simp only [reference?, Option.bind_eq_some_iff] at h
  obtain ⟨d, -, o, -, h⟩ := h
  exact Reference.place_of_ofValue? h

/-- A declaration holds no reference when its value has no token. -/
theorem reference?_eq_none_iff {s : Stylesheet} {p : Place} {d : Declaration}
    (hd : s.declaration? p = some d) :
    s.reference? p = none ↔ RefToken.find? d.value = none := by
  obtain ⟨o, ho, -⟩ := Option.bind_eq_some_iff.mp hd
  simp [reference?, hd, owner?, ho, Reference.ofValue?]

/-- A reference is listed exactly when it is the one at its place. -/
theorem mem_references {s : Stylesheet} {r : Reference} :
    r ∈ s.references ↔ s.reference? r.place = some r := by
  simp only [references, List.mem_filterMap, Prod.exists, reference?, mem_declarations]
  constructor
  · rintro ⟨p, d, hd, h⟩
    have hp : r.place = p := by
      obtain ⟨o, -, ho⟩ := Option.bind_eq_some_iff.mp h
      exact Reference.place_of_ofValue? ho
    subst hp
    simpa [hd] using h
  · intro h
    obtain ⟨d, hd, h⟩ := Option.bind_eq_some_iff.mp h
    exact ⟨r.place, d, hd, h⟩

theorem mem_references_of_reference? {s : Stylesheet} {p : Place} {r : Reference}
    (h : s.reference? p = some r) : r ∈ s.references := by
  rw [mem_references, place_of_reference? h]
  exact h

theorem pairwise_references (s : Stylesheet) :
    s.references.Pairwise fun a b => a.place.Before b.place := by
  refine List.pairwise_filterMap.mpr (s.pairwise_declarations.imp fun {a b} h => ?_)
  intro r hr r' hr'
  obtain ⟨o, -, ho⟩ := Option.bind_eq_some_iff.mp hr
  obtain ⟨o', -, ho'⟩ := Option.bind_eq_some_iff.mp hr'
  rw [Reference.place_of_ofValue? ho, Reference.place_of_ofValue? ho']
  exact h

/-- No declaration holds two references. -/
theorem nodup_places (s : Stylesheet) : (s.references.map (·.place)).Nodup :=
  List.pairwise_map.mpr (s.pairwise_references.imp Place.Before.ne)

/-- A reference stands in a declaration, where its token is found between two texts. -/
theorem exists_find?_of_mem_references {s : Stylesheet} {r : Reference} (h : r ∈ s.references) :
    ∃ d o before t after, s.declaration? r.place = some d ∧ s.owner? r.place = some o ∧
      RefToken.find? d.value = some (before, t, after) ∧ t.reference o.selector r.place = r := by
  have h := mem_references.mp h
  simp only [reference?, Option.bind_eq_some_iff, Reference.ofValue?, Option.map_eq_some_iff,
    Prod.exists] at h
  obtain ⟨d, hd, o, ho, before, t, after, hfind, ht⟩ := h
  exact ⟨d, o, before, t, after, hd, ho, hfind, ht⟩

theorem isSome_declaration?_of_mem_references {s : Stylesheet} {r : Reference}
    (h : r ∈ s.references) : (s.declaration? r.place).isSome = true := by
  obtain ⟨d, _, _, _, _, hd, -⟩ := exists_find?_of_mem_references h
  rw [hd]
  rfl

/-! ## Which declarations refer -/

/-- The reference at a place is what the value there says in the rule that it stands in. -/
theorem reference?_eq_some_iff {s : Stylesheet} {p : Place} {r : Reference} :
    s.reference? p = some r ↔
      ∃ o d, s.rules[p.rule]? = some o ∧ o.declarations[p.declaration]? = some d ∧
        Reference.ofValue? d.value o.selector p = some r := by
  simp only [reference?, declaration?, owner?, Option.bind_eq_some_iff]
  constructor
  · rintro ⟨d, ⟨o, ho, hd⟩, o', ho', h⟩
    obtain rfl := Option.some.inj (ho.symm.trans ho')
    exact ⟨o, d, ho, hd, h⟩
  · rintro ⟨o, d, ho, hd, h⟩
    exact ⟨d, ⟨o, ho, hd⟩, o, ho, h⟩

/-- A declaration refers when a token in form stands somewhere in its value. -/
theorem isSome_reference?_iff {s : Stylesheet} {p : Place} :
    (s.reference? p).isSome = true ↔
      ∃ o d, s.rules[p.rule]? = some o ∧ o.declarations[p.declaration]? = some d ∧
        ∃ before t after, RefToken.InForm t ∧ d.value = before ++ t.text ++ after := by
  simp only [← RefToken.isSome_find?_iff, Option.isSome_iff_exists, reference?_eq_some_iff]
  constructor
  · rintro ⟨r, o, d, ho, hd, h⟩
    obtain ⟨x, hx, -⟩ := Option.map_eq_some_iff.mp h
    exact ⟨o, d, ho, hd, x, hx⟩
  · rintro ⟨o, d, ho, hd, ⟨before, t, after⟩, hfind⟩
    exact ⟨t.reference o.selector p, o, d, ho, hd, by rw [Reference.ofValue?, hfind]; rfl⟩

/-- The places of the references are those of the declarations that refer. -/
theorem mem_places_iff {s : Stylesheet} {p : Place} :
    p ∈ s.references.map (·.place) ↔ (s.reference? p).isSome = true := by
  rw [List.mem_map, Option.isSome_iff_exists]
  constructor
  · rintro ⟨r, hr, rfl⟩
    exact ⟨r, mem_references.mp hr⟩
  · rintro ⟨r, hr⟩
    exact ⟨r, mem_references_of_reference? hr, place_of_reference? hr⟩

end Stylesheet

/-! ## The index of a sheet -/

namespace RefIndex

/-- Main statement: the index of a sheet records each declaration that refers exactly once.  Over all
groups no place comes twice, and the places are those of the declarations in whose value a token
stands.  What is recorded is the reference that the value makes in the rule that owns it, and each
group has its references in document order. -/
theorem ofSheet_records (scope : Scope) (s : Stylesheet) :
    ((ofSheet scope s).references.map (·.place)).Nodup ∧
      (∀ p, p ∈ (ofSheet scope s).references.map (·.place) ↔
        ∃ o d, s.rules[p.rule]? = some o ∧ o.declarations[p.declaration]? = some d ∧
          ∃ before t after, RefToken.InForm t ∧ d.value = before ++ t.text ++ after) ∧
      (∀ r, r ∈ (ofSheet scope s).references ↔
        ∃ o d, s.rules[r.place.rule]? = some o ∧ o.declarations[r.place.declaration]? = some d ∧
          Reference.ofValue? d.value o.selector r.place = some r) ∧
      ∀ t g, (t, g) ∈ (ofSheet scope s).groups →
        (∀ r ∈ g, r.target = t) ∧ g.Pairwise fun a b => a.place.Before b.place := by
  have hperm : (ofSheet scope s).references.Perm s.references := references_perm scope s.references
  refine ⟨(hperm.map _).nodup_iff.mpr s.nodup_places, fun p => ?_, fun r => ?_, fun t g hg => ?_⟩
  · rw [(hperm.map _).mem_iff, Stylesheet.mem_places_iff, Stylesheet.isSome_reference?_iff]
  · rw [hperm.mem_iff, Stylesheet.mem_references, Stylesheet.reference?_eq_some_iff]
  · have hgroup : g = s.references.filter (·.target = t) := by
      rw [← getD_group? scope, mem_groups_iff.mp hg, Option.getD_some]
    subst hgroup
    exact ⟨fun r hr => of_decide_eq_true (List.mem_filter.mp hr).2, s.pairwise_references.filter _⟩

/-- Two rules that ask for the same under two names, and a value without a token between them. -/
def crossing : Stylesheet where
  rules :=
    [⟨".a".toList, [⟨"top".toList, "ref(.b, left)".toList, false⟩,
        ⟨"left".toList, "1px ref(&, top) ref(.b, left)".toList, false⟩,
        ⟨"color".toList, "ref(.b)".toList, true⟩], none⟩,
      ⟨".b".toList, [⟨"left".toList, "calc(ref(&, left, 0))".toList, false⟩], some "print".toList⟩]

/-- A group with references from both rules, between whose places that of another group stands. -/
theorem ofSheet_records_crossing :
    (ofSheet .property crossing).references.map (·.place) = [⟨0, 0⟩, ⟨1, 0⟩, ⟨0, 1⟩] ∧
      ∃ g, (⟨".b".toList, "left".toList⟩, g) ∈ (ofSheet .property crossing).groups ∧
        g.map (·.place) = [⟨0, 0⟩, ⟨1, 0⟩] ∧ g.Pairwise fun a b => a.place.Before b.place := by
  have hfirst : (ofSheet .property crossing).groups.head? =
      some (⟨".b".toList, "left".toList⟩,
        [⟨⟨".b".toList, "left".toList⟩, none, "ref(.b, left)".toList, ⟨0, 0⟩⟩,
          ⟨⟨".b".toList, "left".toList⟩, some "0".toList, "ref(&, left, 0)".toList, ⟨1, 0⟩⟩]) := by
    decide +kernel
  have hgroup := List.mem_of_head? hfirst
  obtain ⟨-, -, -, hgroups⟩ := ofSheet_records .property crossing
  exact ⟨by decide +kernel, _, hgroup, rfl, (hgroups _ _ hgroup).2⟩

end RefIndex

end StyleRef

import StyleRef.Matching
import StyleRef.Proofs.Extraction

/-
# The selection of sources

What a target takes can be said without a pass over the rules.  A target takes
the last declaration of its property in the last rule that has its selector and
declares its property; without such a rule it takes the fallback that reaches it.

`Stylesheet.IsSource` says the first half and `Stylesheet.supply?` computes the
whole.  What passes over the rules leave behind is compared with it later.
-/

namespace StyleRef

/-! ## The source of a target -/

/-- The rule has the selector of the target and declares its property. -/
def Rule.Serves (r : Rule) (t : Target) : Prop :=
  t.selector ∈ r.selectors ∧ ∃ d ∈ r.declarations, d.property = t.property

instance decServes (r : Rule) (t : Target) : Decidable (r.Serves t) :=
  inferInstanceAs (Decidable (_ ∧ _))

/-- Declaration number `j` is the last one of the property in its rule. -/
def Rule.IsLast (r : Rule) (property : Text) (j : Nat) : Prop :=
  (∃ d, r.declarations[j]? = some d ∧ d.property = property) ∧
    ∀ k d, j < k → r.declarations[k]? = some d → d.property ≠ property

/-- The place is that of the last declaration of the target's property in the last rule that has
the target's selector and declares the property. -/
structure Stylesheet.IsSource (s : Stylesheet) (t : Target) (p : Place) : Prop where
  inRule : ∃ r, s.rules[p.rule]? = some r ∧ t.selector ∈ r.selectors ∧
    r.IsLast t.property p.declaration
  inLast : ∀ i r, p.rule < i → s.rules[i]? = some r → ¬ r.Serves t

/-- The source of a target, computed. -/
def Stylesheet.source? (s : Stylesheet) (t : Target) : Option Place :=
  s.rules.zipIdx.reverse.findSome? fun v => v.1.serves? v.2 t

/-- What the last element that has a value gives. -/
theorem findSome?_reverse_zipIdx_eq_some_iff {α β : Type} {f : α × Nat → Option β} {l : List α}
    {b : β} :
    l.zipIdx.reverse.findSome? f = some b ↔
      ∃ j a, l[j]? = some a ∧ f (a, j) = some b ∧
        ∀ k a', j < k → l[k]? = some a' → f (a', k) = none := by
  have hmem : ∀ x : α × Nat, x ∈ l.zipIdx.reverse ↔ l[x.2]? = some x.1 := by
    intro x
    rw [List.mem_reverse, List.mem_zipIdx_iff_getElem?]
  -- the search goes by falling numbers
  have hfalls : l.zipIdx.reverse.Pairwise fun x y => y.2 < x.2 :=
    List.pairwise_reverse.mpr (Stylesheet.pairwise_zipIdx l)
  rw [List.findSome?_eq_some_iff]
  constructor
  · rintro ⟨l₁, ⟨a, j⟩, l₂, hsplit, hf, hnone⟩
    rw [hsplit] at hmem hfalls
    refine ⟨j, a, (hmem (a, j)).mp (by simp), hf, fun k a' hk ha' => hnone _ ?_⟩
    rcases List.mem_append.mp ((hmem (a', k)).mpr ha') with h | h
    · exact h
    · have hle : k ≤ j := by
        rcases List.mem_cons.mp h with h | h
        · exact Nat.le_of_eq (congrArg Prod.snd h)
        · exact Nat.le_of_lt ((List.pairwise_cons.mp (List.pairwise_append.mp hfalls).2.1).1 _ h)
      omega
  · rintro ⟨j, a, ha, hf, hlast⟩
    obtain ⟨l₁, l₂, hsplit⟩ := List.append_of_mem ((hmem (a, j)).mpr ha)
    refine ⟨l₁, (a, j), l₂, hsplit, hf, fun x hx => hlast x.2 x.1 ?_ ?_⟩
    · rw [hsplit] at hfalls
      exact (List.pairwise_append.mp hfalls).2.2 x hx _ List.mem_cons_self
    · exact (hmem x).mp (by simp [hsplit, hx])

namespace Rule

theorem lastOf?_eq_some_iff {r : Rule} {property : Text} {j : Nat} :
    r.lastOf? property = some j ↔ r.IsLast property j := by
  rw [lastOf?, List.findRev?_eq_find?_reverse, List.find?_eq_findSome?_guard, List.map_findSome?,
    findSome?_reverse_zipIdx_eq_some_iff, IsLast]
  simp only [Function.comp, Option.map_eq_some_iff, Option.guard_eq_some_iff, decide_eq_true_eq,
    Option.map_eq_none_iff, Option.guard_eq_none_iff, decide_eq_false_iff_not]
  constructor
  · rintro ⟨j', d, hd, ⟨_, ⟨rfl, hp⟩, rfl⟩, hlast⟩
    exact ⟨⟨d, hd, hp⟩, hlast⟩
  · rintro ⟨⟨d, hd, hp⟩, hlast⟩
    exact ⟨j, d, hd, ⟨_, ⟨rfl, hp⟩, rfl⟩, hlast⟩

theorem isSome_lastOf?_iff {r : Rule} {property : Text} :
    (r.lastOf? property).isSome = true ↔ ∃ d ∈ r.declarations, d.property = property := by
  simp only [lastOf?, List.findRev?_eq_find?_reverse, Option.isSome_map, List.find?_isSome,
    List.mem_reverse, decide_eq_true_eq, Prod.exists]
  constructor
  · rintro ⟨d, j, hd, hp⟩
    exact ⟨d, List.mem_of_getElem? (List.mem_zipIdx_iff_getElem?.mp hd), hp⟩
  · rintro ⟨d, hd, hp⟩
    obtain ⟨j, hj⟩ := List.getElem?_of_mem hd
    exact ⟨d, j, List.mem_zipIdx_iff_getElem?.mpr hj, hp⟩

theorem serves?_eq_some_iff {r : Rule} {i : Nat} {t : Target} {p : Place} :
    r.serves? i t = some p ↔
      p.rule = i ∧ t.selector ∈ r.selectors ∧ r.IsLast t.property p.declaration := by
  obtain ⟨i', j⟩ := p
  by_cases h : t.selector ∈ r.selectors
  · simp only [serves?, h, ↓reduceIte, Option.map_eq_some_iff, lastOf?_eq_some_iff,
      Place.mk.injEq, true_and]
    constructor
    · rintro ⟨j', hj, rfl, rfl⟩
      exact ⟨rfl, hj⟩
    · rintro ⟨rfl, hj⟩
      exact ⟨j, hj, rfl, rfl⟩
  · simp [serves?, h]

theorem isSome_serves?_iff {r : Rule} {i : Nat} {t : Target} :
    (r.serves? i t).isSome = true ↔ r.Serves t := by
  by_cases h : t.selector ∈ r.selectors <;> simp [serves?, Serves, h, isSome_lastOf?_iff]

theorem serves?_eq_none_iff {r : Rule} {i : Nat} {t : Target} :
    r.serves? i t = none ↔ ¬ r.Serves t := by
  rw [← isSome_serves?_iff (i := i), Option.not_isSome_iff_eq_none]

end Rule

namespace Stylesheet

theorem source?_eq_some_iff {s : Stylesheet} {t : Target} {p : Place} :
    s.source? t = some p ↔ s.IsSource t p := by
  rw [source?, findSome?_reverse_zipIdx_eq_some_iff]
  simp only [Rule.serves?_eq_some_iff, Rule.serves?_eq_none_iff]
  constructor
  · rintro ⟨i, r, hr, ⟨rfl, hsel, hlast⟩, hrules⟩
    exact ⟨⟨r, hr, hsel, hlast⟩, hrules⟩
  · rintro ⟨⟨r, hr, hsel, hlast⟩, hrules⟩
    exact ⟨p.rule, r, hr, ⟨rfl, hsel, hlast⟩, hrules⟩

theorem source?_eq_none_iff {s : Stylesheet} {t : Target} :
    s.source? t = none ↔ ∀ r ∈ s.rules, ¬ r.Serves t := by
  simp only [source?, List.findSome?_eq_none_iff, List.mem_reverse, Prod.forall,
    Rule.serves?_eq_none_iff, List.mem_zipIdx_iff_getElem?]
  constructor
  · intro h r hr
    obtain ⟨i, hi⟩ := List.getElem?_of_mem hr
    exact h r i hi
  · intro h r i hi
    exact h r (List.mem_of_getElem? hi)

/-- A target has a source when a rule serves it. -/
theorem exists_isSource_iff {s : Stylesheet} {t : Target} :
    (∃ p, s.IsSource t p) ↔ ∃ r ∈ s.rules, r.Serves t := by
  simp only [← source?_eq_some_iff, ← Option.ne_none_iff_exists', ne_eq, source?_eq_none_iff,
    not_forall, not_not, exists_prop]

theorem IsSource.unique {s : Stylesheet} {t : Target} {p q : Place} (hp : s.IsSource t p)
    (hq : s.IsSource t q) : p = q := by
  rw [← source?_eq_some_iff] at hp hq
  exact Option.some.inj (hp.symm.trans hq)

/-- What a sheet selects for a target: its source, or else the fallback that reaches it. -/
def supply? (scope : Scope) (s : Stylesheet) (t : Target) : Option Supply :=
  ((s.source? t).map Supply.declaration).or
    ((Asked.fallback? scope s.references t).map Supply.fallback)

theorem supply?_eq_declaration_iff {scope : Scope} {s : Stylesheet} {t : Target} {p : Place} :
    s.supply? scope t = some (.declaration p) ↔ s.IsSource t p := by
  rw [supply?, ← source?_eq_some_iff]
  cases s.source? t <;> simp

theorem supply?_eq_fallback_iff {scope : Scope} {s : Stylesheet} {t : Target} {f : Text} :
    s.supply? scope t = some (.fallback f) ↔
      (∀ r ∈ s.rules, ¬ r.Serves t) ∧ Asked.fallback? scope s.references t = some f := by
  rw [supply?, ← source?_eq_none_iff]
  cases s.source? t <;> simp

theorem supply?_eq_none_iff {scope : Scope} {s : Stylesheet} {t : Target} :
    s.supply? scope t = none ↔
      (∀ r ∈ s.rules, ¬ r.Serves t) ∧ Asked.fallback? scope s.references t = none := by
  rw [supply?, ← source?_eq_none_iff]
  cases s.source? t <;> simp

theorem IsSource.exists_declaration {s : Stylesheet} {t : Target} {p : Place}
    (h : s.IsSource t p) : ∃ d, s.declaration? p = some d ∧ d.property = t.property := by
  obtain ⟨r, hr, -, ⟨d, hd, hp⟩, -⟩ := h.inRule
  exact ⟨d, by simp [declaration?, hr, hd], hp⟩

end Stylesheet

end StyleRef

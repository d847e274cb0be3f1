import StyleRef.Proofs.Leaves
import StyleRef.Proofs.Outcome

/-
# What the scope of fallbacks may change

The scope of selectors lets a fallback reach more targets than the scope of
properties does, and some of them a different fallback.  It has no say in what
is found in rules: both scopes bind the same targets to the same declarations.

So the wider scope adds targets that are bound to a fallback.  These depend on
nothing, so they are leaves of the order, and leaves do not matter to it
(`StyleRef.Proofs.Leaves`): the scopes find the same circle, if there is one.
Where both resolve, they can differ only in a declaration whose chain of sources
ends in a token that takes a fallback, or that is left.
-/

namespace StyleRef

theorem Scope.Reaches.selector {scope : Scope} {a t : Target} (h : scope.Reaches a t) :
    Scope.selector.Reaches a t := by
  cases scope with
  | selector => exact h
  | property => exact congrArg Target.selector h

namespace Stylesheet

variable {s : Stylesheet}

/-! ## The wider selection -/

/-- A fallback that reaches a target as a property reaches it as one of its selector. -/
theorem fallback?_selector_ne_none {rs : List Reference} {t : Target}
    (h : Asked.fallback? .property rs t ≠ none) : Asked.fallback? .selector rs t ≠ none := by
  rw [Ne, Asked.fallback?_eq_none_iff] at h ⊢
  intro hnone
  exact h fun r hr hreach => hnone r hr hreach.selector

theorem supply?_selector_ne_none {t : Target} (h : s.supply? .property t ≠ none) :
    s.supply? .selector t ≠ none := by
  rw [Ne, supply?_eq_none_iff] at h ⊢
  rintro ⟨hserves, hnone⟩
  exact h ⟨hserves, not_imp_not.mp fallback?_selector_ne_none hnone⟩

/-- Which declarations supply targets does not depend on the scope. -/
theorem isDeclaration_supply? (scope scope' : Scope) (t : Target) :
    (s.supply? scope t).any (·.isDeclaration) = (s.supply? scope' t).any (·.isDeclaration) := by
  have h : ∀ scope, (s.supply? scope t).any (·.isDeclaration) = (s.source? t).isSome := by
    intro scope
    rw [supply?]
    cases s.source? t with
    | some p => rfl
    | none => cases Asked.fallback? scope s.references t <;> rfl
  rw [h, h]

theorem covered_selector {sel : Text} (hsel : sel ∈ Asked.selectors s.references)
    (h : s.Covered .property sel) : s.Covered .selector sel := by
  rw [covered_iff hsel] at h ⊢
  exact fun r hr hrs => fallback?_selector_ne_none (h r hr hrs)

theorem uncovered_selector_subset : s.uncovered .selector ⊆ s.uncovered .property := by
  intro sel h
  simp only [uncovered, List.mem_filter, decide_eq_true_eq] at h ⊢
  exact ⟨h.1, h.2.1, fun hcovered => h.2.2 (covered_selector h.1 hcovered)⟩

/-! ## The order -/

theorem contains_bindings_iff {scope : Scope} {t : Target} :
    (Ledger.passes scope s 1).bindings.contains t = true ↔
      t ∈ Asked.targets s.references ∧ s.supply? scope t ≠ none := by
  rw [Table.contains_iff, Table.mem_keys_iff, Ledger.get?_bindings_passes,
    Option.isSome_iff_ne_none]
  split <;> simp_all

/-- The narrower scope leaves targets with a fallback out of the bindings, and nothing else. -/
theorem keys_bindings_property :
    (Ledger.passes .property s 1).bindings.keys =
      (Ledger.passes .selector s 1).bindings.keys.filter
        (Ledger.passes .property s 1).bindings.contains := by
  have hkeys := Ledger.keys_bindings_passes .property s 0
  rw [Ledger.keys_bindings_passes .selector s 0, List.filter_append]
  refine hkeys.trans ?_
  congr 1
  · -- the targets that rules serve are bound in both scopes
    refine (List.filter_eq_self.mpr fun t ht => ?_).symm
    rw [Table.contains_iff, hkeys]
    exact List.mem_append_left _ ht
  · rw [List.filter_filter]
    refine List.filter_congr fun t ht => ?_
    by_cases hsource : s.source? t = none
    · have hsupply : s.supply? .property t ≠ none ↔
          Asked.fallback? .property s.references t ≠ none := by
        rw [Ne, supply?_eq_none_iff, ← source?_eq_none_iff]
        simp [hsource]
      have hcontains : (Ledger.passes .property s 1).bindings.contains t = true ↔
          t ∈ Asked.targets s.references ∧ s.supply? .property t ≠ none :=
        contains_bindings_iff
      rw [hsupply] at hcontains
      have hwide : Asked.fallback? .property s.references t ≠ none →
          Asked.fallback? .selector s.references t ≠ none :=
        fallback?_selector_ne_none
      rw [Bool.eq_iff_iff]
      simp only [hsource, Option.isSome_iff_ne_none, true_and, decide_eq_true_eq, Bool.and_eq_true,
        hcontains]
      exact ⟨fun h => ⟨⟨ht, h⟩, hwide h⟩, fun h => h.1.2⟩
    · simp [hsource]

/-- The order in the narrower scope is that in the wider without those targets; a circle is the same
in both. -/
theorem commitOrder_property :
    (Ledger.passes .property s 1).index.commitOrder (Ledger.passes .property s 1).bindings =
      ((Ledger.passes .selector s 1).index.commitOrder
        (Ledger.passes .selector s 1).bindings).map
          (List.filter (Ledger.passes .property s 1).bindings.contains) := by
  refine RefIndex.commitOrder_restrict (fun t ht => ?_) (fun t => ?_) keys_bindings_property
  · -- what depends on something is supplied by a rule, so it is bound in both scopes
    rw [Option.eq_none_iff_forall_ne_some]
    intro u hu
    obtain ⟨htarget, q, -, hq, -⟩ := dependency?_passes_iff.mp hu
    have hsupply : s.supply? .property t ≠ none := by
      rw [supply?_eq_declaration_iff.mpr hq]
      simp
    rw [contains_bindings_iff.mpr ⟨htarget, hsupply⟩] at ht
    cases ht
  · refine Option.ext fun u => ?_
    simp only [Option.filter_eq_some_iff, dependency?_passes_iff, contains_bindings_iff]
    constructor
    · rintro ⟨ht, q, r, hq, hr, rfl, hu⟩
      have hmem := Asked.mem_targets.mpr ⟨r, mem_references_of_reference? hr, rfl⟩
      exact ⟨⟨ht, q, r, hq, hr, rfl, supply?_selector_ne_none hu⟩, hmem, hu⟩
    · rintro ⟨⟨ht, q, r, hq, hr, rfl, -⟩, -, hu⟩
      exact ⟨ht, q, r, hq, hr, rfl, hu⟩

/-! ## The outcome -/

/-- A declaration whose chain of sources ends in a declaration without a token. -/
def Rooted (s : Stylesheet) (p : Place) : Prop :=
  ∃ q d, Relation.ReflTransGen s.Needs p q ∧ s.declaration? q = some d ∧
    RefToken.find? d.value = none

theorem Rooted.exists_resolves {p : Place} (h : s.Rooted p) :
    ∃ v, ∀ scope, s.Resolves scope p v := by
  obtain ⟨q, d, hchain, hd, hfind⟩ := h
  induction hchain using Relation.ReflTransGen.head_induction_on with
  | refl =>
      have hnone := (reference?_eq_none_iff hd).mpr hfind
      exact ⟨d.value, fun scope => .stays hd (by simp [hnone])⟩
  | head hneeds _ ih =>
      obtain ⟨v, hv⟩ := ih
      obtain ⟨r, hr, hsource⟩ := hneeds
      obtain ⟨before, after, hold⟩ := exists_holds hr
      exact ⟨before ++ v ++ after, fun scope =>
        .source hold (supply?_eq_declaration_iff.mpr hsource) (hv scope)⟩

/-- The report in the wider scope: as many references take a declaration, no fewer a fallback, and
no more are left. -/
theorem report_selector :
    let narrow := Report.ofBindings s.references (s.supply? .property)
    let wide := Report.ofBindings s.references (s.supply? .selector)
    wide.resolved = narrow.resolved ∧ narrow.fallbacks ≤ wide.fallbacks ∧
      wide.untouched ≤ narrow.untouched := by
  refine ⟨?_, ?_, ?_⟩
  · exact List.countP_congr fun r _ => by rw [isDeclaration_supply? .selector .property]
  · refine List.countP_mono_left fun r _ h => ?_
    -- a target with a fallback has no source, and the wider scope finds a fallback too
    have hdeclaration := isDeclaration_supply? (s := s) .selector .property r.target
    cases hnarrow : s.supply? .property r.target with
    | none => simp [hnarrow] at h
    | some x =>
        have hne : s.supply? .selector r.target ≠ none :=
          supply?_selector_ne_none (by simp [hnarrow])
        obtain ⟨y, hy⟩ := Option.ne_none_iff_exists'.mp hne
        simp only [hnarrow, hy, Option.any_some] at h hdeclaration ⊢
        rw [hdeclaration]
        exact h
  · refine List.countP_mono_left fun r _ h => ?_
    rw [Option.isNone_iff_eq_none] at h ⊢
    exact not_imp_not.mp supply?_selector_ne_none h

/-- A sheet that resolves in the narrower scope resolves in the wider. -/
theorem exists_resolve_selector_eq_ok {s₁ : Stylesheet} {narrow : Report}
    (h : s.resolve .property = (s₁, .ok narrow)) :
    ∃ s₂ wide, s.resolve .selector = (s₂, .ok wide) := by
  obtain ⟨hcovered, order, horder⟩ := exists_resolve_eq_ok_iff.mp ⟨s₁, narrow, h⟩
  refine exists_resolve_eq_ok_iff.mpr
    ⟨List.subset_nil.mp (hcovered ▸ uncovered_selector_subset), ?_⟩
  rw [commitOrder_property] at horder
  cases hwide : (Ledger.passes .selector s 1).index.commitOrder
      (Ledger.passes .selector s 1).bindings with
  | error circle =>
    rw [hwide] at horder
    cases horder
  | ok order' => exact ⟨order', rfl⟩

/-- How the outcomes in the two scopes compare.  Targets are bound to the same declarations;
selectors that nothing serves in the wider scope are not served in the narrower; where both scopes
have all selectors served, they report the same circle; and where the narrower resolves, the wider
does, with as many values found, no fewer fallbacks and no more tokens left, and with the same value
for every declaration whose chain of sources ends in one without a token. -/
theorem resolve_scopes (s : Stylesheet) :
    (∀ t p,
      ((Ledger.ofSheet .selector s).visitAll s).bindings.get? t = some (.declaration p) ↔
        ((Ledger.ofSheet .property s).visitAll s).bindings.get? t = some (.declaration p)) ∧
    (∀ sels, (s.resolve .selector).2 = .error (.unresolved sels) →
      ∃ sels', (s.resolve .property).2 = .error (.unresolved sels') ∧ sels ⊆ sels') ∧
    ((∀ scope sels, (s.resolve scope).2 ≠ .error (.unresolved sels)) →
      ∀ chain, (s.resolve .selector).2 = .error (.cyclic chain) ↔
        (s.resolve .property).2 = .error (.cyclic chain)) ∧
    (∀ s₁ narrow, s.resolve .property = (s₁, .ok narrow) →
      ∃ s₂ wide, s.resolve .selector = (s₂, .ok wide) ∧
        wide.resolved = narrow.resolved ∧ narrow.fallbacks ≤ wide.fallbacks ∧
        wide.untouched ≤ narrow.untouched ∧
        ∀ p, s.Rooted p → ∃ v, s₁.value? p = some v ∧ s₂.value? p = some v) := by
  have hsubset := uncovered_selector_subset (s := s)
  refine ⟨fun t p => ?_, fun sels h => ?_, fun h chain => ?_, fun s₁ narrow h => ?_⟩
  · exact ((Ledger.passes_select .selector s 0).2.2.1 t p).trans
      ((Ledger.passes_select .property s 0).2.2.1 t p).symm
  · obtain ⟨hne, rfl⟩ := resolve_eq_unresolved_iff.mp h
    have hne' : s.uncovered .property ≠ [] := fun hnil =>
      hne (List.subset_nil.mp (hnil ▸ hsubset))
    exact ⟨_, resolve_eq_unresolved_iff.mpr ⟨hne', rfl⟩, hsubset⟩
  · have hcovered : ∀ scope, s.uncovered scope = [] := by
      intro scope
      by_contra hne
      exact h scope _ (resolve_eq_unresolved_iff.mpr ⟨hne, rfl⟩)
    rw [resolve_eq_cyclic_iff, resolve_eq_cyclic_iff, commitOrder_property]
    simp only [hcovered, true_and]
    cases (Ledger.passes .selector s 1).index.commitOrder
      (Ledger.passes .selector s 1).bindings <;> simp [Except.map]
  · obtain ⟨s₂, wide, h'⟩ := exists_resolve_selector_eq_ok h
    obtain ⟨hnarrow, rfl⟩ := isResolution_of_resolve h
    obtain ⟨hwide, rfl⟩ := isResolution_of_resolve h'
    obtain ⟨hfound, hfallbacks, hleft⟩ := report_selector (s := s)
    refine ⟨s₂, _, h', hfound, hfallbacks, hleft, fun p hp => ?_⟩
    obtain ⟨v, hv⟩ := hp.exists_resolves
    exact ⟨v, hnarrow.value?_eq_some_iff.mpr (hv _), hwide.value?_eq_some_iff.mpr (hv _)⟩

/-- One reference that finds a value, one with a fallback, and one that takes the fallback of the
other in the wider scope only. -/
def neighbours : Stylesheet where
  rules :=
    [⟨".a".toList, [⟨"color".toList, "blue".toList, false⟩], none⟩,
      ⟨".b".toList,
        [⟨"color".toList, "ref(.a, color)".toList, false⟩,
          ⟨"margin".toList, "ref(.a, margin, 1px)".toList, false⟩,
          ⟨"padding".toList, "ref(.a, padding)".toList, false⟩], none⟩]

theorem resolve_scopes_neighbours :
    ∃ s₁ s₂, neighbours.resolve .property = (s₁, .ok ⟨1, 1, 1⟩) ∧
      neighbours.resolve .selector = (s₂, .ok ⟨1, 2, 0⟩) ∧
      ∃ v, s₁.value? ⟨1, 0⟩ = some v ∧ s₂.value? ⟨1, 0⟩ = some v := by
  have h : neighbours.resolve .property =
      ((neighbours.resolve .property).1, .ok ⟨1, 1, 1⟩) := by decide +kernel
  obtain ⟨s₂, wide, h', -, -, -, hvalues⟩ := (resolve_scopes neighbours).2.2.2 _ _ h
  have hwide : wide = ⟨1, 2, 0⟩ := by
    have : (neighbours.resolve .selector).2 = .ok ⟨1, 2, 0⟩ := by decide +kernel
    rw [h'] at this
    exact Except.ok.inj this
  have hneeds : neighbours.Needs ⟨1, 0⟩ ⟨0, 0⟩ :=
    ⟨_, rfl, source?_eq_some_iff.mp (by decide +kernel)⟩
  exact ⟨_, s₂, h, hwide ▸ h', hvalues ⟨1, 0⟩ ⟨⟨0, 0⟩, _, .single hneeds, rfl, by decide +kernel⟩⟩

end Stylesheet

end StyleRef

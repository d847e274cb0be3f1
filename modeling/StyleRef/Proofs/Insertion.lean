import StyleRef.Proofs.Renumbering
import Mathlib.Data.List.InsertIdx

/-
# Rules that have nothing to do with a sheet

A rule that asks for nothing, and of whose selectors nothing is asked, can be
put into a sheet at any position.  It makes the pass over the rules do more: the
fallback of every target is put down once more, also that of targets which were
supplied before.  And it moves the places of all later declarations.  Neither is
seen in the outcome.

The references, the selection and the order of the bindings are the same list or
the same function of targets on both sides, with the places moved; so the same
order or the same circle is found, and each declaration comes to its old value.
-/

namespace StyleRef

/-! ## Numbers after an insertion -/

/-- The number that rule `i` has after a rule was put in at number `k`. -/
def shifted (k i : Nat) : Nat := if i < k then i else i + 1

theorem shifted_lt_shifted {k i j : Nat} : shifted k i < shifted k j ↔ i < j := by
  unfold shifted
  split <;> split <;> omega

/-- Every number but that of the new rule is the shifted number of an old one. -/
theorem exists_shifted {k j : Nat} (h : j ≠ k) : ∃ i, shifted k i = j := by
  by_cases hj : j < k
  · exact ⟨j, if_pos hj⟩
  · refine ⟨j - 1, ?_⟩
    rw [shifted, if_neg (by omega)]
    omega

theorem Place.exists_move_shifted {k : Nat} {p : Place} (h : p.rule ≠ k) :
    ∃ q : Place, q.move (shifted k) = p := by
  obtain ⟨i, hi⟩ := exists_shifted h
  exact ⟨⟨i, p.declaration⟩, by simp [Place.move, hi]⟩

theorem Place.Before.move_shifted {p q : Place} (h : p.Before q) (k : Nat) :
    (p.move (shifted k)).Before (q.move (shifted k)) := by
  rcases h with h | ⟨h, hd⟩
  · exact Or.inl (shifted_lt_shifted.mpr h)
  · exact Or.inr ⟨congrArg (shifted k) h, hd⟩

theorem Place.Before.asymm {p q : Place} (h : p.Before q) : ¬ q.Before p := by
  rcases h with h | ⟨h, hd⟩ <;> rintro (h' | ⟨h', hd'⟩) <;> omega

/-! ## The sheet with one more rule -/

/-- The sheet with a rule put in at number `k`. -/
def Stylesheet.insertRule (s : Stylesheet) (k : Nat) (r : Rule) : Stylesheet :=
  ⟨s.rules.insertIdx k r⟩

/-- The rule asks for nothing, and nothing is asked of its selectors in the sheet. -/
structure Rule.Unrelated (r : Rule) (s : Stylesheet) : Prop where
  silent : ∀ d ∈ r.declarations, RefToken.find? d.value = none
  unasked : ∀ sel ∈ r.selectors, sel ∉ Asked.selectors s.references

theorem Rule.Unrelated.not_serves {r : Rule} {s : Stylesheet} (h : r.Unrelated s) {t : Target}
    (ht : t ∈ Asked.targets s.references) : ¬ r.Serves t := by
  rintro ⟨hsel, -⟩
  obtain ⟨x, hx, rfl⟩ := Asked.mem_targets.mp ht
  exact h.unasked _ hsel (Asked.mem_selectors.mpr ⟨x, hx, rfl⟩)

/-- An element that yields nothing can be put in anywhere. -/
theorem flatMap_insertIdx {α β : Type} {f : α → List β} {a : α} (h : f a = []) (l : List α)
    (k : Nat) : (l.insertIdx k a).flatMap f = l.flatMap f := by
  induction l generalizing k with
  | nil => cases k <;> simp [h]
  | cons b l ih =>
      cases k with
      | zero => simp [h]
      | succ k => simp [ih k]

namespace Stylesheet

section Insert
variable {s : Stylesheet} {k : Nat} {r : Rule}

theorem rearranged_insertRule : s.Rearranged (shifted k) (s.insertRule k r) := by
  intro i
  simp only [insertRule, List.getElem?_insertIdx, shifted]
  by_cases hi : i < k
  · simp [hi]
  · have hlt : ¬ i + 1 < k := by omega
    have hne : ¬ i + 1 = k := by omega
    simp [hi, hlt, hne]

variable (hk : k ≤ s.rules.length)
include hk

theorem rules_insertRule_self : (s.insertRule k r).rules[k]? = some r := by
  simp [insertRule, List.getElem?_insertIdx, hk]

theorem forall_mem_insertRule {P : Rule → Prop} :
    (∀ o ∈ (s.insertRule k r).rules, P o) ↔ P r ∧ ∀ o ∈ s.rules, P o := by
  simp [insertRule, List.mem_insertIdx hk, or_imp, forall_and]

/-! ## What is asked and what is selected -/

theorem reference?_insertRule_self (h : r.Unrelated s) {p : Place} (hp : p.rule = k) :
    (s.insertRule k r).reference? p = none := by
  subst hp
  simp only [reference?, Option.bind_eq_none_iff, declaration?, owner?, rules_insertRule_self hk,
    Option.bind_some]
  intro d hd
  simp [Reference.ofValue?, h.silent d (List.mem_of_getElem? hd)]

theorem references_insertRule (h : r.Unrelated s) :
    (s.insertRule k r).references = s.references.map (Reference.move (shifted k)) := by
  have hmoved : s.Rearranged (shifted k) (s.insertRule k r) := rearranged_insertRule
  have hsorted : (s.references.map (Reference.move (shifted k))).Pairwise fun a b =>
      a.place.Before b.place :=
    List.pairwise_map.mpr (s.pairwise_references.imp fun h => h.move_shifted k)
  have hnodup : (s.references.map (Reference.move (shifted k))).Nodup :=
    hsorted.imp fun h e => h.ne (congrArg _ e)
  -- two lists in document order that have the same members are the same
  refine List.Perm.eq_of_pairwise (fun a b _ _ hab hba => absurd hba hab.asymm)
    (pairwise_references _) hsorted ?_
  refine (List.perm_ext_iff_of_nodup (nodup_places _).of_map hnodup).mpr fun x => ?_
  rw [List.mem_map]
  constructor
  · intro hx
    rw [mem_references] at hx
    have hne : x.place.rule ≠ k := by
      intro e
      rw [reference?_insertRule_self hk h e] at hx
      cases hx
    obtain ⟨p, hp⟩ := Place.exists_move_shifted hne
    rw [← hp, hmoved.reference?, Option.map_eq_some_iff] at hx
    obtain ⟨y, hy, rfl⟩ := hx
    exact ⟨y, mem_references_of_reference? hy, rfl⟩
  · rintro ⟨y, hy, rfl⟩
    exact hmoved.move_mem_references hy

theorem targets_insertRule (h : r.Unrelated s) :
    Asked.targets (s.insertRule k r).references = Asked.targets s.references := by
  rw [references_insertRule hk h, Asked.targets_map_move]

/-- A target that the new rule does not serve keeps its source. -/
theorem IsSource.move_insertRule {t : Target} {p : Place} (h : s.IsSource t p)
    (ht : ¬ r.Serves t) : (s.insertRule k r).IsSource t (p.move (shifted k)) := by
  have hmoved : s.Rearranged (shifted k) (s.insertRule k r) := rearranged_insertRule
  obtain ⟨o, ho, hsel, hlast⟩ := h.inRule
  refine ⟨⟨o, (hmoved p.rule).trans ho, hsel, hlast⟩, fun j o' hj ho' => ?_⟩
  by_cases hjk : j = k
  · subst hjk
    rw [rules_insertRule_self hk] at ho'
    exact Option.some.inj ho' ▸ ht
  · obtain ⟨i, rfl⟩ := exists_shifted hjk
    exact h.inLast i o' (shifted_lt_shifted.mp hj) ((hmoved i).symm.trans ho')

theorem fallback?_insertRule (h : r.Unrelated s) (scope : Scope) (t : Target) :
    Asked.fallback? scope (s.insertRule k r).references t =
      Asked.fallback? scope s.references t := by
  rw [references_insertRule hk h, Asked.fallback?_map_move]

/-- What is selected for a target that is asked is what was selected before. -/
theorem supply?_insertRule (h : r.Unrelated s) (scope : Scope) {t : Target}
    (ht : t ∈ Asked.targets s.references) :
    (s.insertRule k r).supply? scope t = (s.supply? scope t).map (Supply.move (shifted k)) := by
  have hserves := h.not_serves ht
  refine supply?_move ?_ (fun p hp => hp.move_insertRule hk hserves)
    (fallback?_insertRule hk h scope t)
  simp [forall_mem_insertRule hk (P := fun o => ¬ o.Serves t), hserves]

theorem supply?_insertRule_of_mem (h : r.Unrelated s) (scope : Scope) :
    ∀ x ∈ s.references, (s.insertRule k r).supply? scope x.target =
      (s.supply? scope x.target).map (Supply.move (shifted k)) := fun x hx =>
  supply?_insertRule hk h scope (Asked.mem_targets.mpr ⟨x, hx, rfl⟩)

theorem isSource_insertRule_iff (h : r.Unrelated s) {t : Target} (ht : t ∈ Asked.targets s.references)
    {q : Place} : (s.insertRule k r).IsSource t q ↔ ∃ p, s.IsSource t p ∧ p.move (shifted k) = q := by
  have hold : ∀ p, s.IsSource t p ↔ s.supply? .selector t = some (.declaration p) :=
    fun _ => supply?_eq_declaration_iff.symm
  have hnew : (s.insertRule k r).IsSource t q ↔
      (s.insertRule k r).supply? .selector t = some (.declaration q) :=
    supply?_eq_declaration_iff.symm
  rw [hnew, supply?_insertRule hk h .selector ht]
  simp only [hold]
  rcases s.supply? .selector t with _ | (p | f) <;> simp [Supply.move]

theorem uncovered_insertRule (h : r.Unrelated s) (scope : Scope) :
    (s.insertRule k r).uncovered scope = s.uncovered scope := by
  have hcovered : ∀ sel, (s.insertRule k r).Covered scope sel ↔ s.Covered scope sel := by
    intro sel
    cases scope <;> simp [Covered, references_insertRule hk h]
  rw [uncovered, uncovered, references_insertRule hk h, Asked.selectors_map_move]
  refine List.filter_congr fun sel hsel => decide_eq_decide.mpr ?_
  have hr : sel ∉ r.selectors := fun hr => h.unasked sel hr hsel
  rw [forall_mem_insertRule hk, hcovered]
  simp [hr]

/-! ## The order of writing -/

theorem keys_bindings_insertRule (h : r.Unrelated s) (scope : Scope) :
    (Ledger.passes scope (s.insertRule k r) 1).bindings.keys =
      (Ledger.passes scope s 1).bindings.keys := by
  have htargets := targets_insertRule hk h
  have hnone : (Asked.targets s.references).filter (r.Serves ·) = [] := by
    rw [List.filter_eq_nil_iff]
    intro t ht
    simpa using h.not_serves ht
  rw [Ledger.keys_bindings_passes, Ledger.keys_bindings_passes, htargets,
    ← Ledger.eraseDups_flatMap_serves (Asked.nodup_targets _),
    ← Ledger.eraseDups_flatMap_serves (Asked.nodup_targets _)]
  congr 1
  · have hsame := flatMap_insertIdx (f := fun o => (Asked.targets s.references).filter (o.Serves ·))
      hnone s.rules k
    rw [insertRule, hsame]
  · refine List.filter_congr fun t ht => decide_eq_decide.mpr ?_
    rw [fallback?_insertRule hk h, source?_eq_none_iff, source?_eq_none_iff,
      forall_mem_insertRule hk (P := fun o => ¬ o.Serves t)]
    simp [h.not_serves ht]

theorem dependency?_insertRule (h : r.Unrelated s) (scope : Scope) :
    (Ledger.passes scope (s.insertRule k r) 1).index.dependency?
        (Ledger.passes scope (s.insertRule k r) 1).bindings =
      (Ledger.passes scope s 1).index.dependency? (Ledger.passes scope s 1).bindings := by
  have hmoved : s.Rearranged (shifted k) (s.insertRule k r) := rearranged_insertRule
  have hsupply : ∀ {p : Place} {x : Reference}, s.reference? p = some x →
      ((s.insertRule k r).supply? scope x.target ≠ none ↔ s.supply? scope x.target ≠ none) := by
    intro p x hx
    rw [supply?_insertRule_of_mem hk h scope x (mem_references_of_reference? hx)]
    simp
  funext t
  refine Option.ext fun u => ?_
  rw [dependency?_passes_iff, dependency?_passes_iff, targets_insertRule hk h]
  refine and_congr_right fun ht => ?_
  constructor
  · rintro ⟨q, x, hq, hx, rfl, hu⟩
    obtain ⟨p, hp, rfl⟩ := (isSource_insertRule_iff hk h ht).mp hq
    rw [hmoved.reference?, Option.map_eq_some_iff] at hx
    obtain ⟨y, hy, rfl⟩ := hx
    exact ⟨p, y, hp, hy, rfl, (hsupply hy).mp hu⟩
  · rintro ⟨p, y, hp, hy, rfl, hu⟩
    refine ⟨p.move (shifted k), y.move (shifted k), hp.move_insertRule hk (h.not_serves ht), ?_,
      rfl, (hsupply hy).mpr hu⟩
    rw [hmoved.reference?, hy, Option.map_some]

theorem commitOrder_insertRule (h : r.Unrelated s) (scope : Scope) :
    (Ledger.passes scope (s.insertRule k r) 1).index.commitOrder
        (Ledger.passes scope (s.insertRule k r) 1).bindings =
      (Ledger.passes scope s 1).index.commitOrder (Ledger.passes scope s 1).bindings := by
  rw [RefIndex.commitOrder, RefIndex.commitOrder, dependency?_insertRule hk h,
    keys_bindings_insertRule hk h]

/-! ## Values -/

theorem IsResolution.insertRule (h : r.Unrelated s) {scope : Scope} {s' : Stylesheet}
    (hs : s.IsResolution scope s') :
    (s.insertRule k r).IsResolution scope (s'.insertRule k r) := by
  have hk' : k ≤ s'.rules.length := hs.length_rules ▸ hk
  constructor
  · have := hs.skeleton
    simp only [Stylesheet.skeleton] at this
    simp only [Stylesheet.skeleton, Stylesheet.insertRule, List.map_insertIdx, this]
  · intro p d hd
    by_cases hp : p.rule = k
    · -- the new rule stays
      refine .stays ?_ (by simp [reference?_insertRule_self hk h hp])
      subst hp
      simpa [declaration?, rules_insertRule_self hk, rules_insertRule_self hk'] using hd
    · obtain ⟨q, rfl⟩ := Place.exists_move_shifted hp
      rw [rearranged_insertRule.declaration?] at hd
      exact (hs.resolves q d hd).move (supply?_insertRule_of_mem hk h scope) rearranged_insertRule

/-- A rule that asks for nothing and of which nothing is asked can be put in anywhere: the outcome
is the old one, with the rule put into the sheet that it leaves. -/
theorem resolve_insertRule (h : r.Unrelated s) (scope : Scope) :
    (s.insertRule k r).resolve scope =
      ((s.resolve scope).1.insertRule k r, (s.resolve scope).2) := by
  have huncovered := uncovered_insertRule hk h scope
  by_cases hcovered : s.uncovered scope = []
  · have hcovered' := huncovered.trans hcovered
    have horder' := commitOrder_insertRule hk h scope
    cases horder : (Ledger.passes scope s 1).index.commitOrder
        (Ledger.passes scope s 1).bindings with
    | error chain =>
        rw [horder] at horder'
        rw [resolve_of_commitOrder_error hcovered horder,
          resolve_of_commitOrder_error hcovered' horder']
    | ok order =>
        rw [horder] at horder'
        obtain ⟨s₁, hresolve, hvalue⟩ := resolve_of_commitOrder_ok hcovered horder
        obtain ⟨s₂, hresolve', hvalue'⟩ := resolve_of_commitOrder_ok hcovered' horder'
        have hreferences := references_insertRule hk h
        rw [hresolve, hresolve', hvalue'.unique (hvalue.insertRule hk h),
          report_move (supply?_insertRule_of_mem hk h scope) (.of_eq hreferences.symm)]
  · rw [resolve_of_uncovered hcovered, resolve_of_uncovered (by rwa [huncovered]), huncovered]

end Insert

/-- A rule that declares the property which `backwards` asks for, under selectors of its own. -/
def bystander : Rule := ⟨".d, .e".toList, [⟨"width".toList, "3px".toList, true⟩], none⟩

theorem resolve_insertRule_bystander :
    1 ≤ backwards.rules.length ∧ bystander.Unrelated backwards ∧
      (backwards.insertRule 1 bystander).resolve .selector =
        ((backwards.resolve .selector).1.insertRule 1 bystander,
          (backwards.resolve .selector).2) := by
  have hk : 1 ≤ backwards.rules.length := by decide
  have h : bystander.Unrelated backwards := ⟨by decide +kernel, by decide +kernel⟩
  exact ⟨hk, h, resolve_insertRule hk h .selector⟩

end Stylesheet

end StyleRef

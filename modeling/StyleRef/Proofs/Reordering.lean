import StyleRef.Proofs.Renumbering
import Mathlib.Logic.Equiv.Defs

/-
# The order of the rules

Rules of a style sheet compete: of two rules that serve one target the later one
wins, and of two fallbacks for one target the later one is kept.  Where nothing
competes, the order of the rules does not matter: the reordered sheet resolves
to the reordered result, with the same report, and fails in the same way.

A reordering is a permutation of rule numbers here, so that each statement about
it can be read backwards with the inverse.
-/

namespace StyleRef

section Move
variable (σ : Equiv.Perm Nat)

@[simp] theorem Place.move_symm_move (p : Place) : (p.move σ).move σ.symm = p := by
  simp [Place.move]

@[simp] theorem Place.move_move_symm (p : Place) : (p.move σ.symm).move σ = p := by
  simp [Place.move]

theorem Place.move_injective : Function.Injective (Place.move σ) :=
  Function.LeftInverse.injective (Place.move_symm_move σ)

@[simp] theorem Reference.move_move_symm (r : Reference) : (r.move σ.symm).move σ = r := by
  simp [Reference.move]

end Move

namespace Stylesheet

/-! ## Reordered sheets -/

/-- Nothing competes in the sheet: of two rules at most one serves a target that is asked, and the
fallbacks that reach a target are equal. -/
structure Untied (scope : Scope) (s : Stylesheet) : Prop where
  sources : ∀ r ∈ s.references,
    s.rules.Pairwise fun a b => ¬ (a.Serves r.target ∧ b.Serves r.target)
  fallbacks : ∀ r ∈ s.references, ∀ r' ∈ s.references, scope.Reaches r.target r'.target →
    r.fallback ≠ none → r'.fallback ≠ none → r.fallback = r'.fallback

namespace Rearranged

variable {σ : Equiv.Perm Nat} {s s' : Stylesheet}

theorem symm (h : s.Rearranged σ s') : s'.Rearranged σ.symm s := by
  intro i
  rw [← h (σ.symm i), Equiv.apply_symm_apply]

theorem mem_rules (h : s.Rearranged σ s') {r : Rule} : r ∈ s'.rules ↔ r ∈ s.rules := by
  -- one direction, to be read backwards for the other
  have forth : ∀ {σ : Equiv.Perm Nat} {s s' : Stylesheet}, s.Rearranged σ s' →
      r ∈ s.rules → r ∈ s'.rules := by
    intro σ s s' h hr
    obtain ⟨i, hi⟩ := List.getElem?_of_mem hr
    exact List.mem_of_getElem? ((h i).trans hi)
  exact ⟨forth h.symm, forth h⟩

/-! ## Moving references -/

theorem references_perm (h : s.Rearranged σ s') :
    (s.references.map (Reference.move σ)).Perm s'.references := by
  have hplaces : ((s.references.map (Reference.move σ)).map (·.place)).Nodup := by
    rw [List.map_map]
    have := s.nodup_places.map (Place.move_injective σ)
    rwa [List.map_map] at this
  refine (List.perm_ext_iff_of_nodup hplaces.of_map s'.nodup_places.of_map).mpr fun r => ?_
  constructor
  · intro hr
    obtain ⟨r₀, hr₀, rfl⟩ := List.mem_map.mp hr
    exact h.move_mem_references hr₀
  · intro hr
    exact List.mem_map.mpr ⟨_, h.symm.move_mem_references hr, r.move_move_symm σ⟩

theorem mem_selectors (h : s.Rearranged σ s') (sel : Text) :
    sel ∈ Asked.selectors s'.references ↔ sel ∈ Asked.selectors s.references := by
  simp [Asked.mem_selectors, ← h.references_perm.mem_iff]

theorem covered_iff (h : s.Rearranged σ s') {scope : Scope} {sel : Text} :
    s'.Covered scope sel ↔ s.Covered scope sel := by
  cases scope <;> simp [Covered, ← h.references_perm.mem_iff]

/-- What nothing serves does not depend on the order of the rules, other than in its own order. -/
theorem uncovered_perm (h : s.Rearranged σ s') (scope : Scope) :
    (s'.uncovered scope).Perm (s.uncovered scope) := by
  refine (List.perm_ext_iff_of_nodup ((nodup_eraseDups _).filter _)
    ((nodup_eraseDups _).filter _)).mpr fun sel => ?_
  have hselectors := h.mem_selectors sel
  rw [Asked.selectors] at hselectors
  simp only [List.mem_filter, Asked.selectors, hselectors, h.mem_rules, h.covered_iff]

/-! ## Moving what is selected -/

/-- Where one rule at most serves a target, its source moves along. -/
theorem isSource (h : s.Rearranged σ s') {t : Target} {p : Place}
    (hone : s.rules.Pairwise fun a b => ¬ (a.Serves t ∧ b.Serves t)) (hp : s.IsSource t p) :
    s'.IsSource t (p.move σ) := by
  obtain ⟨r, hr, hsel, hlast⟩ := hp.inRule
  refine ⟨⟨r, (h p.rule).trans hr, hsel, hlast⟩, fun i r' hi hr' hserves' => ?_⟩
  have hserves : r.Serves t := by
    obtain ⟨d, hd, hproperty⟩ := hlast.1
    exact ⟨hsel, d, List.mem_of_getElem? hd, hproperty⟩
  have hr'' : s.rules[σ.symm i]? = some r' := (h.symm i).trans hr'
  obtain ⟨hlt, rfl⟩ := List.getElem?_eq_some_iff.mp hr
  obtain ⟨hlt', rfl⟩ := List.getElem?_eq_some_iff.mp hr''
  rcases Nat.lt_trichotomy p.rule (σ.symm i) with hi' | hi' | hi'
  · exact List.pairwise_iff_getElem.mp hone _ _ hlt hlt' hi' ⟨hserves, hserves'⟩
  · rw [Place.move, hi', Equiv.apply_symm_apply] at hi
    exact Nat.lt_irrefl _ hi
  · exact List.pairwise_iff_getElem.mp hone _ _ hlt' hlt hi' ⟨hserves', hserves⟩

theorem isSource_iff (h : s.Rearranged σ s') {t : Target} {p : Place}
    (hone : s.rules.Pairwise fun a b => ¬ (a.Serves t ∧ b.Serves t)) :
    s'.IsSource t (p.move σ) ↔ s.IsSource t p := by
  refine ⟨fun hp => ?_, h.isSource hone⟩
  -- the sheet has a source, and moved it can be no other
  obtain ⟨r, hr, hserves⟩ := exists_isSource_iff.mp ⟨_, hp⟩
  obtain ⟨q, hq⟩ := exists_isSource_iff.mpr ⟨r, h.mem_rules.mp hr, hserves⟩
  rwa [Place.move_injective σ (hp.unique (h.isSource hone hq))]

/-- Where the fallbacks that reach a target are equal, the last of them is any of them. -/
theorem fallback?_eq (h : s.Rearranged σ s') {scope : Scope} (huntied : s.Untied scope)
    (t : Target) :
    Asked.fallback? scope s'.references t = Asked.fallback? scope s.references t := by
  cases hf' : Asked.fallback? scope s'.references t with
  | none =>
      refine (Asked.fallback?_eq_none_iff.mpr fun r hr hreach => ?_).symm
      exact Asked.fallback?_eq_none_iff.mp hf' (r.move σ) (h.move_mem_references hr) hreach
  | some f' =>
      obtain ⟨r', hr', hreach', hgiven'⟩ := Asked.exists_of_fallback? hf'
      have hr'₀ := h.symm.move_mem_references hr'
      cases hf : Asked.fallback? scope s.references t with
      | none =>
          have := Asked.fallback?_eq_none_iff.mp hf _ hr'₀ hreach'
          rw [Reference.fallback_move, hgiven'] at this
          cases this
      | some f =>
          obtain ⟨r, hr, hreach, hgiven⟩ := Asked.exists_of_fallback? hf
          have heq := huntied.fallbacks _ hr'₀ r hr (hreach'.of_common hreach) (by simp [hgiven'])
            (by simp [hgiven])
          rwa [Reference.fallback_move, hgiven', hgiven] at heq

/-- Where nothing competes, what a sheet selects for a target moves along. -/
theorem supply?_eq (h : s.Rearranged σ s') {scope : Scope} (huntied : s.Untied scope) :
    ∀ r ∈ s.references,
      s'.supply? scope r.target = (s.supply? scope r.target).map (Supply.move σ) := by
  intro r hr
  refine supply?_move ?_ (fun p => h.isSource (huntied.sources r hr)) (h.fallback?_eq huntied _)
  simp only [h.mem_rules]

/-! ## Moving what a sheet means -/

theorem needs_iff (h : s.Rearranged σ s') {scope : Scope} (huntied : s.Untied scope)
    {p q : Place} : s'.Needs (p.move σ) (q.move σ) ↔ s.Needs p q := by
  simp only [Needs, h.reference?, Option.map_eq_some_iff]
  constructor
  · rintro ⟨_, ⟨r, hr, rfl⟩, hq⟩
    have hone := huntied.sources r (mem_references_of_reference? hr)
    exact ⟨r, hr, (h.isSource_iff hone).mp hq⟩
  · rintro ⟨r, hr, hq⟩
    have hone := huntied.sources r (mem_references_of_reference? hr)
    exact ⟨_, ⟨r, hr, rfl⟩, h.isSource hone hq⟩

/-- A circle is there before and after a reordering. -/
theorem exists_circle_iff (h : s.Rearranged σ s') {scope : Scope} (huntied : s.Untied scope) :
    (∃ p, Relation.TransGen s'.Needs p p) ↔ ∃ p, Relation.TransGen s.Needs p p := by
  constructor
  · rintro ⟨p, hp⟩
    refine ⟨p.move σ.symm, hp.lift (Place.move σ.symm) fun a b hab => ?_⟩
    exact (h.needs_iff huntied).mp (by simpa using hab)
  · rintro ⟨p, hp⟩
    exact ⟨p.move σ, hp.lift (Place.move σ) fun a b => (h.needs_iff huntied).mpr⟩

end Rearranged

/-! ## Sheets in a given order -/

/-- The rules with the given numbers, in the order of the list. -/
def inOrder (s : Stylesheet) (order : List Nat) : Stylesheet :=
  ⟨order.filterMap fun i => s.rules[i]?⟩

/-- The new number of each rule when the rules are put in a given order. -/
def positions (order : List Nat) (h : order.Perm (List.range order.length)) :
    Equiv.Perm Nat where
  toFun i := if i < order.length then order.idxOf i else i
  invFun k := order.getD k k
  left_inv i := by
    by_cases hi : i < order.length
    · have hidx := List.idxOf_lt_length_of_mem (h.mem_iff.mpr (List.mem_range.mpr hi))
      simp [hi, hidx]
    · simp [hi]
  right_inv k := by
    by_cases hk : k < order.length
    · have hmem := List.mem_range.mp (h.mem_iff.mp (List.getElem_mem hk))
      have hnodup : order.Nodup := h.nodup_iff.mpr List.nodup_range
      simp [hk, hmem, hnodup.idxOf_getElem]
    · simp [hk]

/-- Where every element has a value, the values stand where the elements stood. -/
theorem getElem?_filterMap_of_isSome {α β : Type} {f : α → Option β} {l : List α}
    (h : ∀ a ∈ l, (f a).isSome = true) (k : Nat) : (l.filterMap f)[k]? = l[k]?.bind f := by
  induction l generalizing k with
  | nil => simp
  | cons a l ih =>
      obtain ⟨b, hb⟩ := Option.isSome_iff_exists.mp (h a (by simp))
      rw [List.filterMap_cons_some hb]
      cases k with
      | zero => simp [hb]
      | succ k => simpa using ih (fun a ha => h a (by simp [ha])) k

theorem rearranged_inOrder {s : Stylesheet} {order : List Nat}
    (h : order.Perm (List.range order.length)) (hlength : order.length = s.rules.length) :
    s.Rearranged (positions order h) (s.inOrder order) := by
  intro i
  have hsome : ∀ i ∈ order, (s.rules[i]?).isSome = true := by
    intro i hi
    have hlt := List.mem_range.mp (h.mem_iff.mp hi)
    simpa [hlength] using hlt
  rw [inOrder, getElem?_filterMap_of_isSome hsome, positions, Equiv.coe_fn_mk]
  by_cases hi : i < order.length
  · have hidx := List.idxOf_lt_length_of_mem (h.mem_iff.mpr (List.mem_range.mpr hi))
    simp [hi, hidx]
  · have hi' : ¬ i < s.rules.length := hlength ▸ hi
    simp [hi, hi']

theorem skeleton_inOrder (s : Stylesheet) (order : List Nat) :
    (s.inOrder order).skeleton = order.filterMap fun i => s.skeleton[i]? := by
  simp only [skeleton, inOrder, List.map_filterMap, List.getElem?_map]

/-- Putting a sheet and its resolution in the same order. -/
theorem IsResolution.inOrder {scope : Scope} {s s' : Stylesheet} {order : List Nat}
    (hresolution : s.IsResolution scope s') (huntied : s.Untied scope)
    (h : order.Perm (List.range order.length)) (hlength : order.length = s.rules.length) :
    (s.inOrder order).IsResolution scope (s'.inOrder order) := by
  have hlength' : order.length = s'.rules.length := hlength.trans hresolution.length_rules.symm
  have hrearranged := rearranged_inOrder h hlength
  refine ⟨by rw [skeleton_inOrder, skeleton_inOrder, hresolution.skeleton], fun p d hd => ?_⟩
  have hd' := (rearranged_inOrder h hlength').symm.declaration? p
  rw [hd] at hd'
  simpa using (hresolution.resolves _ d hd').move (hrearranged.supply?_eq huntied) hrearranged

/-! ## The outcome in another order -/

/-- Two outcomes agree up to the order of the rules: two results, reordered and with one report, or
two faults of one kind that leave their sheets alone and name the same selectors. -/
inductive Agree (order : List Nat) (s : Stylesheet) :
    Stylesheet × Except Fault Report → Stylesheet × Except Fault Report → Prop
  | resolved (s' : Stylesheet) (report : Report) :
      Agree order s (s', .ok report) (s'.inOrder order, .ok report)
  | unresolved {sels sels' : List Text} : sels'.Perm sels →
      Agree order s (s, .error (.unresolved sels)) (s.inOrder order, .error (.unresolved sels'))
  | cyclic (chain chain' : List Text) :
      Agree order s (s, .error (.cyclic chain)) (s.inOrder order, .error (.cyclic chain'))

/-- Where nothing competes, the order of the rules does not matter. -/
theorem resolve_inOrder {scope : Scope} {s : Stylesheet} {order : List Nat}
    (horder : order.Perm (List.range s.rules.length)) (huntied : s.Untied scope) :
    Agree order s (s.resolve scope) ((s.inOrder order).resolve scope) := by
  have hlength : order.length = s.rules.length := by simpa using horder.length_eq
  have hperm : order.Perm (List.range order.length) := hlength ▸ horder
  have h := rearranged_inOrder hperm hlength
  have huncovered := h.uncovered_perm scope
  by_cases hcovered : s.uncovered scope = []
  · have hcovered' : (s.inOrder order).uncovered scope = [] := by
      rw [hcovered] at huncovered
      exact huncovered.eq_nil
    by_cases hcircle : ∃ p, Relation.TransGen s.Needs p p
    · obtain ⟨chain, hresolve⟩ := resolve_of_circle hcovered hcircle
      obtain ⟨chain', hresolve'⟩ :=
        resolve_of_circle hcovered' ((h.exists_circle_iff huntied).mpr hcircle)
      rw [hresolve, hresolve']
      exact .cyclic chain chain'
    · obtain ⟨s', hresolve, hvalue⟩ := resolve_of_acyclic hcovered hcircle
      obtain ⟨s'', hresolve', hvalue'⟩ :=
        resolve_of_acyclic hcovered' (mt (h.exists_circle_iff huntied).mp hcircle)
      -- there is one sheet of the moved values
      obtain rfl := hvalue'.unique (hvalue.inOrder huntied hperm hlength)
      rw [hresolve, hresolve', report_move (h.supply?_eq huntied) h.references_perm]
      exact .resolved s' _
  · have hcovered' : (s.inOrder order).uncovered scope ≠ [] := by
      intro hnil
      rw [hnil] at huncovered
      exact hcovered huncovered.symm.eq_nil
    rw [resolve_of_uncovered hcovered, resolve_of_uncovered hcovered']
    exact .unresolved huncovered

theorem resolve_inOrder_backwards :
    [2, 0, 1].Perm (List.range backwards.rules.length) ∧ backwards.Untied .selector ∧
      Agree [2, 0, 1] backwards (backwards.resolve .selector)
        ((backwards.inOrder [2, 0, 1]).resolve .selector) := by
  have horder : [2, 0, 1].Perm (List.range backwards.rules.length) := by decide
  have huntied : backwards.Untied .selector := ⟨by decide +kernel, by decide +kernel⟩
  exact ⟨horder, huntied, resolve_inOrder horder huntied⟩

end Stylesheet

end StyleRef

import StyleRef.Resolve
import StyleRef.Proofs.Bindings
import StyleRef.Proofs.Meaning
import StyleRef.Proofs.Writing

/-
# The outcome of a resolution

A resolution has one of three outcomes, and the sheet says which: a list of
selectors that nothing serves, a circle of declarations that need each other, or
a sheet in which every declaration has the value that it comes to.  The three
conditions exclude each other and leave nothing out, so there is no fourth
outcome; in particular no place outside the sheet is ever read.

The pieces come from the modules before: the bindings are the selection, the
order exists when there is no circle, and what is written in order is final.
-/

namespace StyleRef

namespace Stylesheet

/-! ## What nothing serves -/

/-- Fallbacks cover what is asked of a selector.  In the scope of selectors one reference to it has
to give a fallback; in the scope of properties, one for each property that is asked. -/
def Covered (scope : Scope) (s : Stylesheet) (sel : Text) : Prop :=
  match scope with
  | .selector => ∃ r ∈ s.references, r.target.selector = sel ∧ r.fallback ≠ none
  | .property => ∀ r ∈ s.references, r.target.selector = sel →
      ∃ r' ∈ s.references, r'.target = r.target ∧ r'.fallback ≠ none

instance decCovered (scope : Scope) (s : Stylesheet) (sel : Text) :
    Decidable (s.Covered scope sel) :=
  match scope with
  | .selector => inferInstanceAs (Decidable (∃ r ∈ s.references, _))
  | .property => inferInstanceAs (Decidable (∀ r ∈ s.references, _))

/-- The selectors that are asked something, that no rule has and that fallbacks do not cover, in the
order of first reference. -/
def uncovered (scope : Scope) (s : Stylesheet) : List Text :=
  (Asked.selectors s.references).filter fun sel =>
    (∀ r ∈ s.rules, sel ∉ r.selectors) ∧ ¬ s.Covered scope sel

theorem covered_iff {scope : Scope} {s : Stylesheet} {sel : Text}
    (h : sel ∈ Asked.selectors s.references) :
    s.Covered scope sel ↔ ∀ r ∈ s.references, r.target.selector = sel →
      Asked.fallback? scope s.references r.target ≠ none := by
  simp only [ne_eq, Asked.fallback?_eq_none_iff, not_forall]
  cases scope with
  | selector =>
      constructor
      · rintro ⟨r', hr', rfl, hf⟩ r hr hsel
        exact ⟨r', hr', hsel.symm, hf⟩
      · intro hall
        obtain ⟨r, hr, hsel⟩ := Asked.mem_selectors.mp h
        obtain ⟨r', hr', hreach, hf⟩ := hall r hr hsel
        exact ⟨r', hr', hreach.trans hsel, hf⟩
  | property =>
      constructor
      · intro hall r hr hsel
        obtain ⟨r', hr', ht, hf⟩ := hall r hr hsel
        exact ⟨r', hr', ht, hf⟩
      · intro hall r hr hsel
        obtain ⟨r', hr', ht, hf⟩ := hall r hr hsel
        exact ⟨r', hr', ht, hf⟩

/-! ## A sheet with its values -/

/-- Sheets of one skeleton that have the same declarations are the same. -/
theorem eq_of_declaration? {s s' : Stylesheet} (h : s'.skeleton = s.skeleton)
    (hdeclaration : ∀ p, s'.declaration? p = s.declaration? p) : s' = s := by
  cases s with
  | mk rules =>
      cases s' with
      | mk rules' =>
          congr 1
          refine List.ext_getElem? fun i => ?_
          have hi := congrArg (·[i]?) h
          simp only [skeleton, List.getElem?_map] at hi
          cases hr : rules[i]? with
          | none => simpa [hr] using hi
          | some r =>
              obtain ⟨r', hr'⟩ : ∃ r', rules'[i]? = some r' := by
                cases hr' : rules'[i]? with
                | none => simp [hr, hr'] at hi
                | some r' => exact ⟨r', rfl⟩
              simp only [hr, hr', Option.map_some, Option.some.injEq, Prod.mk.injEq] at hi
              have hdecl : r'.declarations = r.declarations := by
                refine List.ext_getElem? fun j => ?_
                simpa [declaration?, hr, hr'] using hdeclaration ⟨i, j⟩
              rw [hr', Option.some.injEq]
              cases r
              cases r'
              simp_all

theorem eq_of_skeleton {s s' : Stylesheet} (h : s'.skeleton = s.skeleton)
    (hvalue : ∀ p d d', s.declaration? p = some d → s'.declaration? p = some d' →
      d'.value = d.value) : s' = s := by
  refine eq_of_declaration? h fun p => ?_
  have hp := declaration?_of_skeleton h p
  cases hd : s.declaration? p with
  | none => simpa [hd] using hp
  | some d =>
      obtain ⟨d', hd'⟩ : ∃ d', s'.declaration? p = some d' := by
        refine Option.isSome_iff_exists.mp ?_
        simp [isSome_declaration?_of_skeleton h p, hd]
      simp only [hd, hd', Option.map_some, Option.some.injEq, Prod.mk.injEq] at hp
      have hv := hvalue p d d' hd hd'
      rw [hd', Option.some.injEq]
      cases d
      cases d'
      simp_all

/-- The second sheet is the first with each declaration at the value that it comes to. -/
structure IsResolution (scope : Scope) (s s' : Stylesheet) : Prop where
  skeleton : s'.skeleton = s.skeleton
  resolves : ∀ p d, s'.declaration? p = some d → s.Resolves scope p d.value

theorem IsResolution.length_rules {scope : Scope} {s s' : Stylesheet}
    (h : s.IsResolution scope s') : s'.rules.length = s.rules.length := by
  simpa [Stylesheet.skeleton] using congrArg List.length h.skeleton

theorem IsResolution.unique {scope : Scope} {s s₁ s₂ : Stylesheet} (h₁ : s.IsResolution scope s₁)
    (h₂ : s.IsResolution scope s₂) : s₁ = s₂ := by
  refine eq_of_skeleton (h₁.skeleton.trans h₂.skeleton.symm) fun p d d' hd hd' => ?_
  exact (h₁.resolves p d' hd').unique (h₂.resolves p d hd)

/-! ## The run as a commit -/

/-- A resolution is one pass and a commit, also when there is nothing to resolve. -/
theorem resolve_eq_commit (scope : Scope) (s : Stylesheet) :
    s.resolve scope = (Ledger.passes scope s 1).commit s := by
  by_cases h : (Ledger.ofSheet scope s).index.isEmpty = true
  · have hrs : s.references = [] := RefIndex.isEmpty_ofReferences.mp h
    have hpass : Ledger.passes scope s 1 = Ledger.ofSheet scope s := by
      rw [Ledger.passes_eq_visits, Ledger.visits_of_isEmpty h]
    rw [resolve, if_pos h, hpass, Ledger.ofSheet, RefIndex.ofSheet, hrs]
    rfl
  · rw [resolve, if_neg h]
    rfl

theorem unresolved_passes (scope : Scope) (s : Stylesheet) :
    (Ledger.passes scope s 1).unresolved = s.uncovered scope := by
  rw [Ledger.unresolved, (Ledger.visited_passes scope s 1).index, Ledger.unmatched_passes,
    List.filter_filter, uncovered]
  refine List.filter_congr fun sel hsel => ?_
  have hcovered : (RefIndex.ofSheet scope s).isCovered sel = true ↔ s.Covered scope sel := by
    rw [RefIndex.ofSheet, RefIndex.isCovered_ofReferences, covered_iff hsel]
    simp [hsel]
  by_cases h : s.Covered scope sel
  · simp [h, hcovered.mpr h]
  · have hnot : (RefIndex.ofSheet scope s).isCovered sel = false := by
      rw [← Bool.not_eq_true, hcovered]
      exact h
    simp [h, hnot]

/-- The binding of a referenced target is what the sheet selects. -/
theorem get?_bindings_of_mem {scope : Scope} {s : Stylesheet} {r : Reference}
    (hr : r ∈ s.references) :
    (Ledger.passes scope s 1).bindings.get? r.target = s.supply? scope r.target := by
  rw [Ledger.get?_bindings_passes, if_pos (Asked.mem_targets.mpr ⟨r, hr, rfl⟩)]

theorem inRange_bindings (scope : Scope) (s : Stylesheet) :
    Ledger.InRange (Ledger.passes scope s 1).bindings s := by
  intro t p h
  rw [Ledger.get?_bindings_passes] at h
  split at h
  · obtain ⟨d, hd, -⟩ := (supply?_eq_declaration_iff.mp h).exists_declaration
    simp [hd]
  · cases h

/-! ## Circles of declarations -/

section Circle
variable {scope : Scope} {s : Stylesheet}

/-- A target depends on another when its source holds a reference to it. -/
theorem dependency?_passes_iff {t u : Target} :
    (Ledger.passes scope s 1).index.dependency? (Ledger.passes scope s 1).bindings t = some u ↔
      t ∈ Asked.targets s.references ∧ ∃ q r, s.IsSource t q ∧ s.reference? q = some r ∧
        r.target = u ∧ s.supply? scope u ≠ none := by
  rw [RefIndex.dependency?_eq_some_iff, (Ledger.visited_passes scope s 1).index]
  simp only [Ledger.get?_bindings_passes, RefIndex.ofSheet, Table.mem_keys_iff,
    RefIndex.askedAt?_eq_some_iff s.nodup_places]
  constructor
  · rintro ⟨q, hq, ⟨r, hr, rfl, rfl⟩, hu⟩
    split at hq
    · next ht =>
      refine ⟨ht, r.place, r, supply?_eq_declaration_iff.mp hq, mem_references.mp hr, rfl, ?_⟩
      intro hnone
      simp [hnone] at hu
    · cases hq
  · rintro ⟨ht, q, r, hq, hr, rfl, hu⟩
    have hmem := mem_references_of_reference? hr
    refine ⟨q, ?_, ⟨r, hmem, place_of_reference? hr, rfl⟩, ?_⟩
    · rw [if_pos ht]
      exact supply?_eq_declaration_iff.mpr hq
    · rw [if_pos (Asked.mem_targets.mpr ⟨r, hmem, rfl⟩)]
      exact Option.isSome_iff_ne_none.mpr hu

/-- Along a chain of declarations that need each other, their targets depend on each other. -/
theorem transGen_dependency_of_needs {p q : Place} (h : Relation.TransGen s.Needs p q) :
    ∀ {r r' : Reference}, s.reference? p = some r → s.reference? q = some r' →
      s.supply? scope r'.target ≠ none →
      Relation.TransGen (fun t u => (Ledger.passes scope s 1).index.dependency?
        (Ledger.passes scope s 1).bindings t = some u) r.target r'.target := by
  -- one step, from the reference of a declaration to that of its source
  have step : ∀ {p q : Place} {r r' : Reference}, s.Needs p q → s.reference? p = some r →
      s.reference? q = some r' → s.supply? scope r'.target ≠ none →
      (Ledger.passes scope s 1).index.dependency? (Ledger.passes scope s 1).bindings r.target =
        some r'.target := by
    rintro p q r r' ⟨r₀, hr₀, hsource⟩ hr hr' hu
    rw [hr] at hr₀
    obtain rfl := Option.some.inj hr₀
    have htarget := Asked.mem_targets.mpr ⟨r, mem_references_of_reference? hr, rfl⟩
    exact dependency?_passes_iff.mpr ⟨htarget, q, r', hsource, hr', rfl, hu⟩
  induction h with
  | single h =>
      intro r r' hr hr' hu
      exact .single (step h hr hr' hu)
  | tail _ hbc ih =>
      intro r r' hr hr' hu
      obtain ⟨rb, hrb, hsource⟩ := id hbc
      have hb : s.supply? scope rb.target ≠ none := by
        rw [supply?_eq_declaration_iff.mpr hsource]
        simp
      exact .tail (ih hr hrb hb) (step hbc hrb hr' hu)

/-- Along a chain of targets that depend on each other, declarations need each other. -/
theorem transGen_needs_of_dependency {t u : Target}
    (h : Relation.TransGen (fun t u => (Ledger.passes scope s 1).index.dependency?
      (Ledger.passes scope s 1).bindings t = some u) t u) :
    ∀ {p : Place} {r : Reference}, s.reference? p = some r → r.target = t →
      ∃ q r', Relation.TransGen s.Needs p q ∧ s.reference? q = some r' ∧ r'.target = u := by
  induction h with
  | single h =>
      rintro p r hr rfl
      obtain ⟨-, q, r', hq, hr', hu, -⟩ := dependency?_passes_iff.mp h
      exact ⟨q, r', .single ⟨r, hr, hq⟩, hr', hu⟩
  | tail _ h ih =>
      rintro p r hr rfl
      obtain ⟨q, r', hpq, hr', rfl⟩ := ih hr rfl
      obtain ⟨-, q', r'', hq', hr'', hu, -⟩ := dependency?_passes_iff.mp h
      exact ⟨q', r'', .tail hpq ⟨r', hr', hq'⟩, hr'', hu⟩

variable (scope) in
/-- Targets can depend on each other in a circle exactly when declarations can need each other in
one. -/
theorem exists_transGen_dependency_iff :
    (∃ t, Relation.TransGen (fun t u => (Ledger.passes scope s 1).index.dependency?
      (Ledger.passes scope s 1).bindings t = some u) t t) ↔
      ∃ p, Relation.TransGen s.Needs p p := by
  constructor
  · rintro ⟨t, h⟩
    obtain ⟨u, hu, -⟩ := Relation.TransGen.head'_iff.mp h
    obtain ⟨r, hr, rfl⟩ := Asked.mem_targets.mp (dependency?_passes_iff.mp hu).1
    obtain ⟨q, r', hpq, hr', htarget⟩ :=
      transGen_needs_of_dependency h (mem_references.mp hr) rfl
    -- `q` asks for the same as the first declaration, so it needs what that one needs
    obtain ⟨c, ⟨r₀, hr₀, hc⟩, hcq⟩ := Relation.TransGen.head'_iff.mp hpq
    rw [mem_references.mp hr] at hr₀
    obtain rfl := Option.some.inj hr₀
    exact ⟨q, Relation.TransGen.head'_iff.mpr ⟨c, ⟨r', hr', htarget ▸ hc⟩, hcq⟩⟩
  · rintro ⟨p, h⟩
    obtain ⟨c, ⟨r, hr, hc⟩, -⟩ := Relation.TransGen.head'_iff.mp h
    refine ⟨r.target, transGen_dependency_of_needs h hr hr ?_⟩
    rw [supply?_eq_declaration_iff.mpr hc]
    simp

end Circle

/-! ## What is written is what the sheet means -/

section Value
variable {scope : Scope} {s s' : Stylesheet}
  (hwritten : Ledger.Written s.references (Ledger.passes scope s 1).bindings
    (Ledger.passes scope s 1).bindings.keys s s')
include hwritten

/-- A declaration that takes no supply stays. -/
theorem resolves_of_unsupplied {p : Place} {d : Declaration}
    (hnone : ∀ r, s.reference? p = some r → s.supply? scope r.target = none)
    (hd : s'.declaration? p = some d) : s.Resolves scope p d.value := by
  have hframe : s'.declaration? p = s.declaration? p := by
    refine hwritten.frame p ?_
    rintro r hr hrt rfl
    rw [Table.mem_keys_iff, get?_bindings_of_mem hr, hnone r (mem_references.mp hr)] at hrt
    cases hrt
  exact .stays (hframe ▸ hd) hnone

/-- A declaration that takes a supply has it written in the place of its token. -/
theorem exists_supplied_of_written {p : Place} {d : Declaration} {r : Reference}
    (hd : s'.declaration? p = some d) (hr : s.reference? p = some r)
    (hsupply : s.supply? scope r.target ≠ none) :
    ∃ before after supply v, s.Holds p before r after ∧
      s.supply? scope r.target = some supply ∧ s'.supplied supply = .ok v ∧
      d.value = before ++ v ++ after := by
  obtain ⟨before, after, hold⟩ := exists_holds hr
  have hmem := mem_references_of_reference? hr
  have hkey : r.target ∈ (Ledger.passes scope s 1).bindings.keys := by
    rw [Table.mem_keys_iff, get?_bindings_of_mem hmem]
    exact Option.isSome_iff_ne_none.mpr hsupply
  obtain ⟨supply, v, hget, hv, hwrite⟩ := hwritten.written r hmem hkey
  rw [get?_bindings_of_mem hmem] at hget
  rw [place_of_reference? hr, hd] at hwrite
  obtain ⟨d₀, hd₀, rfl⟩ := Option.map_eq_some_iff.mp hwrite.symm
  exact ⟨before, after, supply, v, hold, hget, hv, hold.replaceFirst hd₀ v⟩

/-- A declaration that takes a supply has the value that it comes to, if its source has. -/
theorem resolves_of_supplied {p : Place} {d : Declaration} {r : Reference}
    (hd : s'.declaration? p = some d) (hr : s.reference? p = some r)
    (hsupply : s.supply? scope r.target ≠ none)
    (hsource : ∀ q e, s.supply? scope r.target = some (.declaration q) →
      s'.declaration? q = some e → s.Resolves scope q e.value) : s.Resolves scope p d.value := by
  obtain ⟨before, after, supply, v, hold, hget, hv, hvalue⟩ :=
    exists_supplied_of_written hwritten hd hr hsupply
  rw [hvalue]
  cases supply with
  | fallback f =>
    obtain rfl : f = v := Except.ok.inj hv
    exact .fallback hold hget
  | declaration q =>
    obtain ⟨e, he, rfl⟩ : ∃ e, s'.declaration? q = some e ∧ e.value = v := by
      simp only [supplied, value?] at hv
      cases he : s'.declaration? q with
      | none => simp [he] at hv
      | some e => exact ⟨e, rfl, by simpa [he] using hv⟩
    exact .source hold hget (hsource q e hget he)

/-- Every declaration of the written sheet has the value that it comes to. -/
theorem resolves_of_written {order : List Target}
    (horder : CommitOrder.InOrder ((Ledger.passes scope s 1).index.dependency?
      (Ledger.passes scope s 1).bindings) order)
    (hperm : order.Perm (Ledger.passes scope s 1).bindings.keys) {p : Place} {d : Declaration}
    (hd : s'.declaration? p = some d) : s.Resolves scope p d.value := by
  -- by the position of the target in the order, with the unsupplied declarations set aside
  have key : ∀ n, ∀ p d r, s'.declaration? p = some d → s.reference? p = some r →
      s.supply? scope r.target ≠ none → order.idxOf r.target = n → s.Resolves scope p d.value := by
    intro n
    induction n using Nat.strongRecOn with
    | ind n ih =>
        rintro p d r hd hr hsupply rfl
        refine resolves_of_supplied hwritten hd hr hsupply fun q e hget he => ?_
        cases hq : s.reference? q with
        | none => exact resolves_of_unsupplied hwritten (by simp [hq]) he
        | some r' =>
            by_cases hr' : s.supply? scope r'.target = none
            · exact resolves_of_unsupplied hwritten (by simpa [hq] using hr') he
            · -- the source is written before
              have hmem := mem_references_of_reference? hr
              have hkey : r.target ∈ (Ledger.passes scope s 1).bindings.keys := by
                rw [Table.mem_keys_iff, get?_bindings_of_mem hmem, hget]
                rfl
              have hdep := dependency?_passes_iff.mpr
                ⟨Asked.mem_targets.mpr ⟨r, hmem, rfl⟩, q, r',
                  supply?_eq_declaration_iff.mp hget, hq, rfl, hr'⟩
              exact ih _ (CommitOrder.idxOf_lt_of_inOrder horder (hperm.mem_iff.mpr hkey) hdep)
                q e r' he hq hr' rfl
  cases hr : s.reference? p with
  | none => exact resolves_of_unsupplied hwritten (by simp [hr]) hd
  | some r =>
      by_cases hsupply : s.supply? scope r.target = none
      · exact resolves_of_unsupplied hwritten (by simpa [hr] using hsupply) hd
      · exact key _ p d r hd hr hsupply rfl

end Value

/-! ## The three outcomes -/

section Outcome
variable {scope : Scope} {s : Stylesheet}

theorem resolve_of_uncovered (h : s.uncovered scope ≠ []) :
    s.resolve scope = (s, .error (.unresolved (s.uncovered scope))) := by
  rw [resolve_eq_commit, Ledger.commit, unresolved_passes, if_pos h]

/-- A circle among the bindings is reported as it was found. -/
theorem resolve_of_commitOrder_error (hcovered : s.uncovered scope = []) {chain : List Target}
    (h : (Ledger.passes scope s 1).index.commitOrder (Ledger.passes scope s 1).bindings =
      .error chain) :
    s.resolve scope = (s, .error (.cyclic (chain.map Target.render))) := by
  rw [resolve_eq_commit, Ledger.commit, unresolved_passes, if_neg (by simp [hcovered]), h]

/-- With an order of the bindings, each declaration gets the value that it comes to. -/
theorem resolve_of_commitOrder_ok (hcovered : s.uncovered scope = []) {order : List Target}
    (h : (Ledger.passes scope s 1).index.commitOrder (Ledger.passes scope s 1).bindings =
      .ok order) :
    ∃ s', s.resolve scope =
        (s', .ok (Report.ofBindings s.references (s.supply? scope))) ∧
      s.IsResolution scope s' := by
  obtain ⟨s', hcommit, hwritten⟩ := Ledger.commit_of_order
    (Ledger.visited_passes scope s 1).index s.nodup_places (inRange_bindings scope s)
    (fun _ => isSome_declaration?_of_mem_references) ((unresolved_passes scope s).trans hcovered) h
  have hreport : Report.ofBindings s.references (Ledger.passes scope s 1).bindings.get? =
      Report.ofBindings s.references (s.supply? scope) := by
    simp only [Report.ofBindings, Report.mk.injEq]
    refine ⟨?_, ?_, ?_⟩ <;>
      exact List.countP_congr fun r hr => by rw [get?_bindings_of_mem hr]
  obtain ⟨hin, hperm⟩ := RefIndex.commitOrder_ok h
  refine ⟨s', ?_, hwritten.skeleton, fun p d hd => resolves_of_written hwritten hin hperm hd⟩
  rw [resolve_eq_commit, hcommit, hreport]

/-! The outcome read backwards. -/

theorem resolve_eq_unresolved_iff {sels : List Text} :
    (s.resolve scope).2 = .error (.unresolved sels) ↔
      s.uncovered scope ≠ [] ∧ s.uncovered scope = sels := by
  by_cases hcovered : s.uncovered scope = []
  · cases h : (Ledger.passes scope s 1).index.commitOrder (Ledger.passes scope s 1).bindings with
    | error chain => simp [resolve_of_commitOrder_error hcovered h, hcovered]
    | ok order =>
        obtain ⟨s', hresolve, -⟩ := resolve_of_commitOrder_ok hcovered h
        simp [hresolve, hcovered]
  · simp [resolve_of_uncovered hcovered, hcovered]

theorem resolve_eq_cyclic_iff {chain : List Text} :
    (s.resolve scope).2 = .error (.cyclic chain) ↔
      s.uncovered scope = [] ∧ ∃ circle,
        (Ledger.passes scope s 1).index.commitOrder (Ledger.passes scope s 1).bindings =
          .error circle ∧ circle.map Target.render = chain := by
  by_cases hcovered : s.uncovered scope = []
  · cases h : (Ledger.passes scope s 1).index.commitOrder (Ledger.passes scope s 1).bindings with
    | error circle => simp [resolve_of_commitOrder_error hcovered h, hcovered]
    | ok order =>
        obtain ⟨s', hresolve, -⟩ := resolve_of_commitOrder_ok hcovered h
        simp [hresolve]
  · simp [resolve_of_uncovered hcovered, hcovered]

theorem exists_resolve_eq_ok_iff :
    (∃ s' report, s.resolve scope = (s', .ok report)) ↔
      s.uncovered scope = [] ∧ ∃ order,
        (Ledger.passes scope s 1).index.commitOrder (Ledger.passes scope s 1).bindings =
          .ok order := by
  by_cases hcovered : s.uncovered scope = []
  · cases h : (Ledger.passes scope s 1).index.commitOrder (Ledger.passes scope s 1).bindings with
    | error circle => simp [resolve_of_commitOrder_error hcovered h]
    | ok order =>
        obtain ⟨s', hresolve, -⟩ := resolve_of_commitOrder_ok hcovered h
        simp [hresolve, hcovered]
  · simp [resolve_of_uncovered hcovered, hcovered]

theorem resolve_of_circle (hcovered : s.uncovered scope = [])
    (h : ∃ p, Relation.TransGen s.Needs p p) :
    ∃ chain, s.resolve scope = (s, .error (.cyclic chain)) := by
  obtain ⟨chain, hchain⟩ := RefIndex.exists_commitOrder_error_iff.mpr
    ((exists_transGen_dependency_iff scope).mpr h)
  exact ⟨_, resolve_of_commitOrder_error hcovered hchain⟩

theorem resolve_of_acyclic (hcovered : s.uncovered scope = [])
    (h : ¬ ∃ p, Relation.TransGen s.Needs p p) :
    ∃ s', s.resolve scope =
        (s', .ok (Report.ofBindings s.references (s.supply? scope))) ∧
      s.IsResolution scope s' := by
  cases horder : (Ledger.passes scope s 1).index.commitOrder (Ledger.passes scope s 1).bindings with
  | error chain =>
      exact absurd ((exists_transGen_dependency_iff scope).mp
        (RefIndex.exists_commitOrder_error_iff.mp ⟨chain, horder⟩)) h
  | ok order => exact resolve_of_commitOrder_ok hcovered horder

/-- A resolution that ends well gives each declaration the value that it comes to. -/
theorem isResolution_of_resolve {s' : Stylesheet} {report : Report}
    (h : s.resolve scope = (s', .ok report)) :
    s.IsResolution scope s' ∧ report = Report.ofBindings s.references (s.supply? scope) := by
  by_cases hcovered : s.uncovered scope = []
  · by_cases hcircle : ∃ p, Relation.TransGen s.Needs p p
    · obtain ⟨chain, hchain⟩ := resolve_of_circle hcovered hcircle
      simp [hchain] at h
    · obtain ⟨s'', hresolve, hvalue⟩ := resolve_of_acyclic hcovered hcircle
      rw [hresolve] at h
      simp only [Prod.mk.injEq, Except.ok.injEq] at h
      obtain ⟨rfl, rfl⟩ := h
      exact ⟨hvalue, rfl⟩
  · simp [resolve_of_uncovered hcovered] at h

/-- Which outcome a resolution has.  Uncovered selectors come first, whether or not there is a
circle; a circle is found exactly when declarations need each other in one; and whatever goes wrong,
the sheet stays as it is. -/
theorem resolve_outcome (scope : Scope) (s : Stylesheet) :
    (s.uncovered scope).Nodup ∧
      (s.uncovered scope ≠ [] →
        s.resolve scope = (s, .error (.unresolved (s.uncovered scope)))) ∧
      (s.uncovered scope = [] →
        ((∃ chain, s.resolve scope = (s, .error (.cyclic chain))) ↔
            ∃ p, Relation.TransGen s.Needs p p) ∧
          ((∃ s' report, s.resolve scope = (s', .ok report)) ↔
            ¬ ∃ p, Relation.TransGen s.Needs p p)) := by
  refine ⟨(nodup_eraseDups _).filter _, resolve_of_uncovered, fun hcovered => ?_⟩
  by_cases hcircle : ∃ p, Relation.TransGen s.Needs p p
  · obtain ⟨chain, hchain⟩ := resolve_of_circle hcovered hcircle
    simp [hcircle, hchain]
  · obtain ⟨s', hresolve, -⟩ := resolve_of_acyclic hcovered hcircle
    simp [hcircle, hresolve]

end Outcome

/-! ## The values of a resolved sheet -/

/-- A declaration that comes to a value is one of the sheet. -/
theorem Resolves.isSome_declaration? {scope : Scope} {s : Stylesheet} {p : Place} {v : Text}
    (h : s.Resolves scope p v) : (s.declaration? p).isSome = true := by
  cases h with
  | stays hd _ => simp [hd]
  | fallback hold _ =>
      obtain ⟨d, _, _, hd, -⟩ := hold
      simp [hd]
  | source hold _ _ =>
      obtain ⟨d, _, _, hd, -⟩ := hold
      simp [hd]

/-- The value at a place of a resolution is the one that the declaration comes to. -/
theorem IsResolution.value?_eq_some_iff {scope : Scope} {s s' : Stylesheet}
    (h : s.IsResolution scope s') {p : Place} {v : Text} :
    s'.value? p = some v ↔ s.Resolves scope p v := by
  constructor
  · intro hv
    obtain ⟨d, hd, rfl⟩ := Option.map_eq_some_iff.mp hv
    exact h.resolves p d hd
  · intro hv
    have hsome := hv.isSome_declaration?
    rw [← isSome_declaration?_of_skeleton h.skeleton p] at hsome
    obtain ⟨d, hd⟩ := Option.isSome_iff_exists.mp hsome
    rw [value?, hd, Option.map_some, (h.resolves p d hd).unique hv]

/-- In a resolution a place has a value when it has one in the sheet. -/
theorem IsResolution.exists_value? {scope : Scope} {s s' : Stylesheet}
    (h : s.IsResolution scope s') {p : Place} {d : Declaration} (hd : s.declaration? p = some d) :
    ∃ v, s'.value? p = some v := by
  refine Option.isSome_iff_exists.mp ?_
  simp [value?, isSome_declaration?_of_skeleton h.skeleton p, hd]

/-- The values of a resolved sheet.  The sheet keeps its shape, a value without a token stays, and
one with a token gets, in its place, the value that the source of the target has in the resolved
sheet, or else the fallback that reaches the target; with neither it stays. -/
theorem resolve_values {scope : Scope} {s s' : Stylesheet} {report : Report}
    (h : s.resolve scope = (s', .ok report)) :
    s'.skeleton = s.skeleton ∧
      ∀ p d o, s.declaration? p = some d → s.owner? p = some o →
        ∃ v, s'.value? p = some v ∧
          (RefToken.find? d.value = none → v = d.value) ∧
          ∀ before t after, RefToken.find? d.value = some (before, t, after) →
            d.value = before ++ t.text ++ after ∧
            ((∃ r ∈ s.rules, r.Serves (t.reference o.selector p).target) →
              ∃ q w, s.IsSource (t.reference o.selector p).target q ∧ s'.value? q = some w ∧
                v = before ++ w ++ after) ∧
            (¬ (∃ r ∈ s.rules, r.Serves (t.reference o.selector p).target) →
              (∀ f, Asked.fallback? scope s.references (t.reference o.selector p).target = some f →
                v = before ++ f ++ after) ∧
              (Asked.fallback? scope s.references (t.reference o.selector p).target = none →
                v = d.value)) := by
  obtain ⟨hresolution, -⟩ := isResolution_of_resolve h
  refine ⟨hresolution.skeleton, fun p d o hd ho => ?_⟩
  obtain ⟨v, hv⟩ := hresolution.exists_value? hd
  have hcomes := hresolution.value?_eq_some_iff.mp hv
  refine ⟨v, hv, ?_, ?_⟩
  · intro hfind
    exact hcomes.unique (.stays hd (by simp [reference?, hd, ho, Reference.ofValue?, hfind]))
  · intro before t after hfind
    have hold : s.Holds p before (t.reference o.selector p) after :=
      ⟨d, o, t, hd, ho, hfind, rfl⟩
    refine ⟨RefToken.eq_of_find? hfind, ?_, ?_⟩
    · -- the source has a value of its own in the resolved sheet
      intro hserves
      obtain ⟨q, hq⟩ := exists_isSource_iff.mpr hserves
      obtain ⟨e, he, -⟩ := hq.exists_declaration
      obtain ⟨w, hw⟩ := hresolution.exists_value? he
      refine ⟨q, w, hq, hw, hcomes.unique ?_⟩
      exact .source hold (supply?_eq_declaration_iff.mpr hq) (hresolution.value?_eq_some_iff.mp hw)
    · intro hserves
      have hnone : ∀ r ∈ s.rules, ¬ r.Serves (t.reference o.selector p).target :=
        fun r hr hs => hserves ⟨r, hr, hs⟩
      refine ⟨fun f hf => hcomes.unique ?_, fun hf => hcomes.unique (.stays hd fun r hr => ?_)⟩
      · exact .fallback hold (supply?_eq_fallback_iff.mpr ⟨hnone, hf⟩)
      · obtain rfl := Option.some.inj (hold.reference?.symm.trans hr)
        exact supply?_eq_none_iff.mpr ⟨hnone, hf⟩

/-- Three rules, each of which asks for a value of the next. -/
def backwards : Stylesheet where
  rules :=
    [⟨".a".toList, [⟨"width".toList, "calc(ref(.b, width) + 1px)".toList, false⟩], none⟩,
      ⟨".b".toList, [⟨"width".toList, "ref(.c, width)".toList, false⟩], none⟩,
      ⟨".c".toList, [⟨"width".toList, "2px".toList, false⟩], none⟩]

theorem resolve_values_backwards :
    ∃ s' report, backwards.resolve .property = (s', .ok report) ∧
      ∃ q w, backwards.IsSource ⟨".b".toList, "width".toList⟩ q ∧ s'.value? q = some w ∧
        s'.value? ⟨0, 0⟩ = some ("calc(".toList ++ w ++ " + 1px)".toList) := by
  have h : backwards.resolve .property =
      ((backwards.resolve .property).1, .ok ⟨2, 0, 0⟩) := by decide +kernel
  refine ⟨_, _, h, ?_⟩
  obtain ⟨v, hv, -, htoken⟩ := (resolve_values h).2 ⟨0, 0⟩ _ _ rfl rfl
  obtain ⟨-, hserved, -⟩ :=
    htoken "calc(".toList ⟨".b".toList, " width".toList, none⟩ " + 1px)".toList rfl
  obtain ⟨q, w, hq, hw, rfl⟩ := hserved (by decide +kernel)
  exact ⟨q, w, hq, hw, hv⟩

end Stylesheet

end StyleRef

import StyleRef.Proofs.SecondRun

/-
# A ledger that is kept by hand

A ledger need not come from one pass over the rules.  Whoever holds it may pass
over the rules again, take down supplies and fallbacks for any target, count
selectors as matched or not, and overwrite values of the sheet meanwhile.  What
is committed in the end can contradict the rules, name targets that nothing asks
for, and look for tokens that are gone.

Three things survive every such step: the sheet keeps its skeleton, the ledger
its index, and every supply lies inside the sheet (`Kept`).  They are all that a
commit needs to write everything or nothing (`commit_run`), and to count each
reference once (`report_run`).
-/

namespace StyleRef

namespace Ledger

/-! ## Steps -/

/-- What can be done to a ledger and its sheet before the ledger is committed. -/
inductive Step where
  /-- A pass over the rules of the sheet as it is by then. -/
  | visitAll
  | supply (t : Target) (p : Place)
  | hold (t : Target) (value : Text)
  | addUnmatched (selector : Text)
  | dropUnmatched (selector : Text)
  /-- A value of the sheet is overwritten; the ledger does not get to know of it. -/
  | overwrite (p : Place) (value : Text)

def Step.take : Step → Stylesheet × Ledger → Stylesheet × Ledger
  | .visitAll, (s, l) => (s, l.visitAll s)
  | .supply t p, (s, l) => (s, l.supply t p)
  | .hold t value, (s, l) => (s, l.hold t value)
  | .addUnmatched selector, (s, l) => (s, l.addUnmatched selector)
  | .dropUnmatched selector, (s, l) => (s, l.dropUnmatched selector)
  | .overwrite p value, (s, l) => (s.modifyValue p fun _ => value, l)

/-- A step supplies nothing from outside the sheet. -/
def Step.InRange (s : Stylesheet) : Step → Prop
  | .supply _ p => (s.declaration? p).isSome = true
  | _ => True

instance decInRange (s : Stylesheet) : (step : Step) → Decidable (step.InRange s)
  | .supply _ p => inferInstanceAs (Decidable ((s.declaration? p).isSome = true))
  | .visitAll | .hold _ _ | .addUnmatched _ | .dropUnmatched _ | .overwrite _ _ =>
    inferInstanceAs (Decidable True)

def run (scope : Scope) (s : Stylesheet) (steps : List Step) : Stylesheet × Ledger :=
  steps.foldl (fun x step => step.take x) (s, ofSheet scope s)

/-! ## What steps keep -/

/-- What a sheet and its ledger have kept of the sheet that the ledger was made of. -/
structure Kept (scope : Scope) (s : Stylesheet) (x : Stylesheet × Ledger) : Prop where
  skeleton : x.1.skeleton = s.skeleton
  index : x.2.index = .ofSheet scope s
  supplies : ∀ e ∈ x.2.supplies, (s.declaration? e.2).isSome = true

theorem index_visits (vs : List (Rule × Nat)) (l : Ledger) : (visits vs l).index = l.index := by
  induction vs generalizing l with
  | nil => rfl
  | cons v vs ih => exact (ih _).trans (index_visit l v.2 v.1)

theorem supplies_visits (vs : List (Rule × Nat)) (l : Ledger) :
    (visits vs l).supplies = l.supplies ++ vs.flatMap fun v => suppliesOf l.index v.2 v.1 := by
  induction vs generalizing l with
  | nil => simp [visits]
  | cons v vs ih =>
      refine (ih _).trans ?_
      rw [supplies_visit, index_visit, List.flatMap_cons, List.append_assoc]

/-- What a rule supplies is one of its declarations. -/
theorem isSome_declaration?_of_mem_suppliesOf {s : Stylesheet} {x : RefIndex} {v : Rule × Nat}
    (hv : v ∈ s.rules.zipIdx) {e : Target × Place} (he : e ∈ suppliesOf x v.2 v.1) :
    (s.declaration? e.2).isSome = true := by
  obtain ⟨t, -, ht⟩ := List.mem_filterMap.mp he
  obtain ⟨p, hp, rfl⟩ := Option.map_eq_some_iff.mp ht
  obtain ⟨hrule, -, ⟨d, hd, -⟩, -⟩ := Rule.serves?_eq_some_iff.mp hp
  have hr : s.rules[p.rule]? = some v.1 := hrule ▸ List.mem_zipIdx_iff_getElem?.mp hv
  simp [Stylesheet.declaration?, hr, hd]

section Kept
variable {scope : Scope} {s : Stylesheet} {x : Stylesheet × Ledger}

theorem kept_ofSheet (scope : Scope) (s : Stylesheet) : Kept scope s (s, ofSheet scope s) :=
  ⟨rfl, rfl, fun _ he => absurd he List.not_mem_nil⟩

theorem Kept.isSome_declaration? (h : Kept scope s x) (p : Place) :
    (x.1.declaration? p).isSome = (s.declaration? p).isSome :=
  Stylesheet.isSome_declaration?_of_skeleton h.skeleton p

theorem Kept.take (h : Kept scope s x) {step : Step} (hstep : step.InRange s) :
    Kept scope s (step.take x) := by
  cases step with
  | visitAll =>
      refine ⟨h.skeleton, ?_, fun e he => ?_⟩
      · simpa only [Step.take, visitAll_eq_visits, index_visits] using h.index
      · simp only [Step.take, visitAll_eq_visits, supplies_visits, List.mem_append,
          List.mem_flatMap] at he
        rcases he with he | ⟨v, hv, he⟩
        · exact h.supplies e he
        · rw [← h.isSome_declaration?]
          exact isSome_declaration?_of_mem_suppliesOf hv he
  | supply t p =>
      refine ⟨h.skeleton, h.index, fun e he => ?_⟩
      rcases List.mem_append.mp he with he | he
      · exact h.supplies e he
      · obtain rfl := List.mem_singleton.mp he
        exact hstep
  | hold t value => exact ⟨h.skeleton, h.index, h.supplies⟩
  | addUnmatched selector =>
      have hsupplies : (x.2.addUnmatched selector).supplies = x.2.supplies := by
        unfold addUnmatched
        split <;> rfl
      exact ⟨h.skeleton, (index_addUnmatched _ _).trans h.index, hsupplies ▸ h.supplies⟩
  | dropUnmatched selector => exact ⟨h.skeleton, h.index, h.supplies⟩
  | overwrite p value =>
      exact ⟨(Stylesheet.skeleton_modifyValue _ _ _).trans h.skeleton, h.index, h.supplies⟩

/-- What one step keeps, all of them keep. -/
theorem kept_run (scope : Scope) {s : Stylesheet} {steps : List Step}
    (hsteps : ∀ step ∈ steps, step.InRange s) : Kept scope s (run scope s steps) := by
  rw [run]
  have hstart := kept_ofSheet scope s
  generalize (s, ofSheet scope s) = x at hstart
  induction steps generalizing x with
  | nil => exact hstart
  | cons step steps ih =>
      obtain ⟨hstep, hsteps⟩ := List.forall_mem_cons.mp hsteps
      exact ih hsteps _ (hstart.take hstep)

end Kept

/-! ## Committing -/

section Commit
variable {scope : Scope} {s now : Stylesheet} {l : Ledger}

/-- The recorded references are those of the sheet that the ledger was made of. -/
theorem Kept.mem_references_iff (h : Kept scope s (now, l)) {r : Reference} :
    r ∈ l.index.references ↔ r ∈ s.references := by
  have hindex : l.index = .ofReferences scope s.references := h.index
  rw [hindex]
  exact (RefIndex.references_perm scope s.references).mem_iff

/-- What a reference was recorded for is still there. -/
theorem Kept.isSome_place (h : Kept scope s (now, l)) {r : Reference}
    (hr : r ∈ l.index.references) : (now.declaration? r.place).isSome = true := by
  rw [h.isSome_declaration?]
  exact Stylesheet.isSome_declaration?_of_mem_references (h.mem_references_iff.mp hr)

/-- What is bound lies inside the sheet. -/
theorem Kept.inRange (h : Kept scope s (now, l)) : InRange l.bindings now := by
  intro t p ht
  rw [get?_bindings] at ht
  cases hfind : l.supplies.reverse.find? (·.1 = t) with
  | none => cases hpending : l.pending.get? t <;> simp [hfind, hpending] at ht
  | some e =>
      obtain rfl : e.2 = p := by simpa [hfind] using ht
      rw [h.isSome_declaration?]
      exact h.supplies e (List.mem_reverse.mp (List.mem_of_find?_eq_some hfind))

/-- A commit refuses the ledger and leaves the sheet, or it writes all bindings. -/
theorem Kept.commit (h : Kept scope s (now, l)) :
    l.commit now = (now, .error (.unresolved l.unresolved)) ∨
      (∃ chain, l.commit now = (now, .error (.cyclic chain))) ∨
      ∃ s', l.commit now = (s', .ok (Report.ofBindings s.references l.bindings.get?)) ∧
        Written s.references l.bindings l.bindings.keys now s' := by
  by_cases hunresolved : l.unresolved = []
  · cases horder : l.index.commitOrder l.bindings with
    | error chain =>
        refine Or.inr (Or.inl ⟨chain.map Target.render, ?_⟩)
        simp only [Ledger.commit, hunresolved, horder, ne_eq, not_true_eq_false, ↓reduceIte]
    | ok order =>
        exact Or.inr (Or.inr
          (commit_of_order h.index s.nodup_places h.inRange
            (fun r hr => h.isSome_place (h.mem_references_iff.mpr hr)) hunresolved horder))
  · refine Or.inl ?_
    simp only [Ledger.commit, ne_eq, hunresolved, not_false_eq_true, ↓reduceIte]

end Commit

/-- Whatever was done to a ledger, committing it writes all or nothing.  Every place that is read or
written exists, and every target that is written is bound, so nothing is looked for in vain.  A
fault leaves the sheet.  Without one, only the recorded references to bound targets are written: the
first occurrence of the token, if there is one, gives way to what the supply stands for in the sheet
as it is left. -/
theorem commit_run {scope : Scope} {s now : Stylesheet} {l : Ledger} {steps : List Step}
    (hsteps : ∀ step ∈ steps, step.InRange s) (hrun : run scope s steps = (now, l)) :
    ((∀ r ∈ l.index.references, (now.declaration? r.place).isSome = true) ∧
      (∀ order, l.index.commitOrder l.bindings = .ok order → order.Perm l.bindings.keys) ∧
      ∀ sought, (l.commit now).2 ≠ .error (.noDeclaration sought)) ∧
    (∀ fault, (l.commit now).2 = .error fault → (l.commit now).1 = now) ∧
    ∀ s' report, l.commit now = (s', .ok report) →
      s'.skeleton = now.skeleton ∧
      (∀ p, (∀ r ∈ l.index.references, r.place = p → l.bindings.get? r.target = none) →
        s'.declaration? p = now.declaration? p) ∧
      ∀ r ∈ l.index.references, ∀ supply, l.bindings.get? r.target = some supply →
        ∃ d v, now.declaration? r.place = some d ∧ s'.supplied supply = .ok v ∧
          s'.declaration? r.place =
            some { d with value := Text.replaceFirst r.token v d.value } := by
  have hkept : Kept scope s (now, l) := hrun ▸ kept_run scope hsteps
  have hcommit := hkept.commit
  refine ⟨⟨fun r hr => hkept.isSome_place hr, fun _ h => (RefIndex.commitOrder_ok h).2, ?_⟩, ?_, ?_⟩
  · rintro sought hsought
    rcases hcommit with h | ⟨_, h⟩ | ⟨_, h, -⟩ <;> simp [h] at hsought
  · intro fault hfault
    rcases hcommit with h | ⟨_, h⟩ | ⟨_, h, -⟩
    · rw [h]
    · rw [h]
    · simp [h] at hfault
  · intro s' report hok
    rcases hcommit with h | ⟨_, h⟩ | ⟨s'', h, hwritten⟩
    · simp [h] at hok
    · simp [h] at hok
    · obtain rfl : s'' = s' := congrArg Prod.fst (h.symm.trans hok)
      refine ⟨hwritten.skeleton, fun p hp => hwritten.frame p fun r hr hkey hplace => ?_, ?_⟩
      · have hnone := hp r (hkept.mem_references_iff.mpr hr) hplace
        rw [Table.mem_keys_iff, hnone] at hkey
        cases hkey
      · intro r hr supply hsupply
        have hkey : r.target ∈ l.bindings.keys := by
          rw [Table.mem_keys_iff, hsupply]
          rfl
        obtain ⟨supply', v, hget, hv, hwrite⟩ :=
          hwritten.written r (hkept.mem_references_iff.mp hr) hkey
        obtain rfl : supply' = supply := Option.some.inj (hget.symm.trans hsupply)
        obtain ⟨d, hd⟩ := Option.isSome_iff_exists.mp (hkept.isSome_place hr)
        exact ⟨d, v, hd, hv, by rw [hwrite, hd, Option.map_some]⟩

/-- A passed-over sheet of which a value is overwritten, and bindings that the rules do not give. -/
def swatch : Stylesheet where
  rules :=
    [⟨".a".toList, [⟨"color".toList, "blue".toList, false⟩], none⟩,
      ⟨".b".toList, [⟨"color".toList, "ref(.a, color) solid".toList, true⟩,
        ⟨"margin".toList, "ref(.n, margin)".toList, false⟩], none⟩]

def byHand : List Step :=
  [.visitAll, .overwrite ⟨0, 0⟩ "red".toList, .hold ⟨".n".toList, "margin".toList⟩ "1px".toList,
    .supply ⟨".z".toList, "top".toList⟩ ⟨1, 0⟩, .dropUnmatched ".n".toList]

theorem commit_run_byHand :
    (∀ step ∈ byHand, step.InRange swatch) ∧
      ∃ s', (run .property swatch byHand).2.commit (run .property swatch byHand).1 =
          (s', .ok ⟨1, 1, 0⟩) ∧
        s'.skeleton = swatch.skeleton ∧
        s'.declaration? ⟨1, 0⟩ = some ⟨"color".toList, "red solid".toList, true⟩ := by
  have hsteps : ∀ step ∈ byHand, step.InRange swatch := by decide
  have hcommit : (run .property swatch byHand).2.commit (run .property swatch byHand).1 =
      (((run .property swatch byHand).2.commit (run .property swatch byHand).1).1,
        .ok ⟨1, 1, 0⟩) := by decide +kernel
  have hrun : run .property swatch byHand =
      ((run .property swatch byHand).1, (run .property swatch byHand).2) := rfl
  obtain ⟨-, -, hok⟩ := commit_run hsteps hrun
  obtain ⟨hskeleton, hframe, hwritten⟩ := hok _ _ hcommit
  refine ⟨hsteps, _, hcommit, hskeleton.trans (kept_run .property hsteps).skeleton, ?_⟩
  -- the source holds no reference, so it is as it was overwritten
  have hsource := (hframe ⟨0, 0⟩ (by decide +kernel)).trans
    (show _ = some ⟨"color".toList, "red".toList, false⟩ by decide +kernel)
  obtain ⟨d, v, hd, hv, hwrite⟩ := hwritten
    ⟨⟨".a".toList, "color".toList⟩, none, "ref(.a, color)".toList, ⟨1, 0⟩⟩ (by decide +kernel)
    (.declaration ⟨0, 0⟩) (by decide +kernel)
  obtain rfl : "red".toList = v := by
    simpa [Stylesheet.supplied, Stylesheet.value?, hsource] using hv
  obtain rfl : ⟨"color".toList, "ref(.a, color) solid".toList, true⟩ = d :=
    Option.some.inj ((show some _ = _ by decide +kernel).trans hd)
  exact hwrite

/-! ## The report -/

end Ledger

/-- Every reference is counted under one of the three. -/
theorem Report.total_ofBindings (rs : List Reference) (b : Target → Option Supply) :
    (ofBindings rs b).resolved + (ofBindings rs b).fallbacks + (ofBindings rs b).untouched =
      rs.length := by
  induction rs with
  | nil => rfl
  | cons r rs ih =>
      have hone : (if (b r.target).any (·.isDeclaration) then 1 else 0) +
          (if (b r.target).any (!·.isDeclaration) then 1 else 0) +
            (if (b r.target).isNone then 1 else 0) = 1 := by
        match b r.target with
        | none | some (.declaration _) | some (.fallback _) => rfl
      simp only [ofBindings, List.countP_cons, List.length_cons] at ih ⊢
      omega

/-- There are as many references as declarations with a token. -/
theorem Stylesheet.length_references (s : Stylesheet) :
    s.references.length = s.declarations.countP fun x => (RefToken.find? x.2.value).isSome := by
  rw [references, List.length_filterMap_eq_countP]
  refine List.countP_congr fun x hx => ?_
  obtain ⟨p, d⟩ := x
  have hd : s.declaration? p = some d := mem_declarations.mp hx
  have hnone := reference?_eq_none_iff hd
  simp only [reference?, hd, Option.bind_some] at hnone
  rw [Option.isSome_iff_ne_none, Option.isSome_iff_ne_none, ne_eq, ne_eq, hnone]

namespace Ledger

/-- How a report accounts for the references.  Whatever was done to the ledger, each declaration with
a token is counted once, by the binding of what it asks for, and bindings for what nothing asks for
do not count.  After one pass over the rules the untouched references are those to a property that
no rule with the selector declares and that no fallback reaches. -/
theorem report_run (scope : Scope) (s : Stylesheet) :
    (∀ steps now l s' report, (∀ step ∈ steps, step.InRange s) →
      run scope s steps = (now, l) → l.commit now = (s', .ok report) →
        report.resolved + report.fallbacks + report.untouched =
          s.declarations.countP (fun x => (RefToken.find? x.2.value).isSome) ∧
        report.resolved =
          l.index.references.countP (fun r => (l.bindings.get? r.target).any (·.isDeclaration)) ∧
        report.fallbacks =
          l.index.references.countP (fun r => (l.bindings.get? r.target).any (!·.isDeclaration)) ∧
        report.untouched =
          l.index.references.countP (fun r => (l.bindings.get? r.target).isNone) ∧
        ∀ t ∈ l.bindings.keys, t ∉ l.index.targets → l.referencesTo t = []) ∧
    ∀ s' report, s.resolve scope = (s', .ok report) →
      report.untouched = s.references.countP fun r =>
        (∃ o ∈ s.rules, r.target.selector ∈ o.selectors) ∧
        (∀ o ∈ s.rules, r.target.selector ∈ o.selectors →
          ∀ d ∈ o.declarations, d.property ≠ r.target.property) ∧
        ∀ r' ∈ s.references, scope.Reaches r'.target r.target → r'.fallback = none := by
  refine ⟨?_, ?_⟩
  · intro steps now l s' report hsteps hrun hok
    have hkept : Kept scope s (now, l) := hrun ▸ kept_run scope hsteps
    have hindex : l.index = .ofReferences scope s.references := hkept.index
    have hperm : l.index.references.Perm s.references :=
      hindex ▸ RefIndex.references_perm scope s.references
    obtain rfl : Report.ofBindings s.references l.bindings.get? = report := by
      rcases hkept.commit with h | ⟨_, h⟩ | ⟨_, h, -⟩ <;> simp [h] at hok
      exact hok.2
    refine ⟨?_, (hperm.countP_eq _).symm, (hperm.countP_eq _).symm, (hperm.countP_eq _).symm, ?_⟩
    · rw [Report.total_ofBindings, Stylesheet.length_references]
    · intro t _ ht
      rw [hindex, RefIndex.targets_ofReferences, Asked.mem_targets] at ht
      rw [referencesTo_eq hindex, List.filter_eq_nil_iff]
      intro r hr htarget
      exact ht ⟨r, hr, by simpa using htarget⟩
  · intro s' report hok
    have hcovered := (Stylesheet.exists_resolve_eq_ok_iff.mp ⟨s', report, hok⟩).1
    obtain ⟨-, rfl⟩ := Stylesheet.isResolution_of_resolve hok
    refine List.countP_congr fun r hr => ?_
    rw [Option.isNone_iff_eq_none, decide_eq_true_eq]
    have hserves : (∀ o ∈ s.rules, ¬ o.Serves r.target) ↔
        ∀ o ∈ s.rules, r.target.selector ∈ o.selectors →
          ∀ d ∈ o.declarations, d.property ≠ r.target.property := by
      simp [Rule.Serves]
    have hnone : s.supply? scope r.target = none ↔ _ := Stylesheet.supply?_eq_none_iff
    rw [hserves, Asked.fallback?_eq_none_iff] at hnone
    refine ⟨fun h => ⟨Stylesheet.exists_rule_of_supply?_eq_none hcovered hr h, hnone.mp h⟩, ?_⟩
    exact fun h => hnone.mpr h.2

/-- One reference of each kind. -/
def tally : Stylesheet where
  rules :=
    [⟨".a".toList, [⟨"color".toList, "blue".toList, false⟩], none⟩,
      ⟨".b".toList, [⟨"color".toList, "ref(.a, color)".toList, false⟩,
        ⟨"margin".toList, "ref(.a, margin)".toList, false⟩], none⟩,
      ⟨".m".toList, [⟨"color".toList, "ref(.n, color, #f00)".toList, false⟩], none⟩]

/-- Supplies that come in twice, a fallback for what is supplied, and one for what nothing asks for. -/
def overfull : List Step :=
  [.visitAll, .visitAll, .hold ⟨".a".toList, "color".toList⟩ "red".toList,
    .hold ⟨".z".toList, "top".toList⟩ "0".toList]

theorem report_run_tally :
    (∀ step ∈ overfull, step.InRange tally) ∧
      (∃ s', (run .selector tally overfull).2.commit (run .selector tally overfull).1 =
          (s', .ok ⟨1, 1, 1⟩) ∧
        tally.declarations.countP (fun x => (RefToken.find? x.2.value).isSome) = 1 + 1 + 1) ∧
      ∃ s', tally.resolve .selector = (s', .ok ⟨1, 1, 1⟩) ∧
        tally.references.countP (fun r =>
          (∃ o ∈ tally.rules, r.target.selector ∈ o.selectors) ∧
          (∀ o ∈ tally.rules, r.target.selector ∈ o.selectors →
            ∀ d ∈ o.declarations, d.property ≠ r.target.property) ∧
          ∀ r' ∈ tally.references, Scope.selector.Reaches r'.target r.target →
            r'.fallback = none) = 1 := by
  have hsteps : ∀ step ∈ overfull, step.InRange tally := by decide
  have hcommit : (run .selector tally overfull).2.commit (run .selector tally overfull).1 =
      (((run .selector tally overfull).2.commit (run .selector tally overfull).1).1,
        .ok ⟨1, 1, 1⟩) := by decide +kernel
  have hresolve : tally.resolve .selector = ((tally.resolve .selector).1, .ok ⟨1, 1, 1⟩) := by
    decide +kernel
  obtain ⟨hrun, hplain⟩ := report_run .selector tally
  refine ⟨hsteps, ⟨_, hcommit, ?_⟩, _, hresolve, (hplain _ _ hresolve).symm⟩
  exact (hrun _ _ _ _ _ hsteps rfl hcommit).1.symm

end Ledger

end StyleRef

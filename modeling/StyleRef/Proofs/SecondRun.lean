import StyleRef.Proofs.Joining
import StyleRef.Proofs.Outcome

/-
# The second run

A sheet in which every reference is left resolves to itself
(`resolve_of_unsupplied`), so a resolved sheet stays as it is when each token in
it is one that was left.  A token that was left is copied with the value that it
stands in, as text, and this is where a second run can find more than the first
left:

* the copy of a token that names the rule it stands in (`&`) asks for something
  else in another rule;
* what stands before a token, or behind it, can make up a new `ref(` together
  with what is put there;
* a `ref(` without a token can be copied in front of what it lacks.

`Unmixed` excludes the three, and then a second run changes nothing
(`resolve_resolved`).  The first alone can make a second run change a value
(`not_resolve_resolved_travelling`).
-/

namespace StyleRef

/-- A token without the placeholder asks for the same in every rule. -/
theorem RefToken.target_reference_of_not_mem {t : RefToken} (h : ownSelector ∉ t.text)
    (owner owner' : Text) (p p' : Place) :
    (t.reference owner p).target = (t.reference owner' p').target := by
  have hselector : ownSelector ∉ Text.trim t.selector := by
    obtain ⟨a, b, hab, -⟩ := Text.trim_between t.selector
    intro hmem
    refine h ?_
    rw [text, tail, hab]
    simp [hmem]
  simp only [reference, Text.expand_eq_self hselector]

namespace Stylesheet

/-! ## References that are left -/

section Left
variable {scope : Scope} {s : Stylesheet} {r : Reference}

theorem fallback_of_supply?_eq_none (hr : r ∈ s.references)
    (hnone : s.supply? scope r.target = none) : r.fallback = none :=
  Asked.fallback?_eq_none_iff.mp (supply?_eq_none_iff.mp hnone).2 r hr (.refl scope _)

/-- Where all selectors are covered, what is left was asked of a selector that a rule has. -/
theorem exists_rule_of_supply?_eq_none (hcovered : s.uncovered scope = []) (hr : r ∈ s.references)
    (hnone : s.supply? scope r.target = none) :
    ∃ o ∈ s.rules, r.target.selector ∈ o.selectors := by
  by_contra hrules
  have hsel : r.target.selector ∈ Asked.selectors s.references :=
    Asked.mem_selectors.mpr ⟨r, hr, rfl⟩
  have hnot : ¬ s.Covered scope r.target.selector := by
    rw [covered_iff hsel]
    exact fun h => h r hr rfl (supply?_eq_none_iff.mp hnone).2
  have hmem : r.target.selector ∈ s.uncovered scope := by
    simp only [uncovered, List.mem_filter, decide_eq_true_eq]
    exact ⟨hsel, fun o ho hso => hrules ⟨o, ho, hso⟩, hnot⟩
  simp [hcovered] at hmem

/-- A sheet in which every reference is left stays as it is. -/
theorem resolve_of_unsupplied (hcovered : s.uncovered scope = [])
    (hnone : ∀ r ∈ s.references, s.supply? scope r.target = none) :
    s.resolve scope = (s, .ok ⟨0, 0, s.references.length⟩) := by
  have hacyclic : ¬ ∃ p, Relation.TransGen s.Needs p p := by
    rintro ⟨p, h⟩
    obtain ⟨q, ⟨r, hr, hq⟩, -⟩ := Relation.TransGen.head'_iff.mp h
    have := hnone r (mem_references_of_reference? hr)
    simp [supply?_eq_declaration_iff.mpr hq] at this
  have hself : s.IsResolution scope s :=
    ⟨rfl, fun p d hd => .stays hd fun r hr => hnone r (mem_references_of_reference? hr)⟩
  have hreport : Report.ofBindings s.references (s.supply? scope) =
      ⟨0, 0, s.references.length⟩ := by
    simp only [Report.ofBindings, Report.mk.injEq, List.countP_eq_zero, List.countP_eq_length]
    refine ⟨?_, ?_, ?_⟩ <;> intro r hr <;> simp [hnone r hr]
  obtain ⟨s', hresolve, hresolution⟩ := resolve_of_acyclic hcovered hacyclic
  rw [hresolve, hresolution.unique hself, hreport]

end Left

/-! ## The rules of a resolved sheet -/

/-- The rules of one skeleton have the same selectors and serve the same targets. -/
theorem exists_rule_of_skeleton {s s' : Stylesheet} (h : s'.skeleton = s.skeleton) {o' : Rule}
    (ho' : o' ∈ s'.rules) :
    ∃ o ∈ s.rules, o.selectors = o'.selectors ∧ ∀ t, o.Serves t ↔ o'.Serves t := by
  have hmem : (o'.selector, o'.media, o'.declarations.map fun d => (d.property, d.important)) ∈
      s.skeleton := h ▸ List.mem_map_of_mem ho'
  obtain ⟨o, ho, heq⟩ := List.mem_map.mp hmem
  simp only [Prod.mk.injEq] at heq
  obtain ⟨hselector, -, hdeclarations⟩ := heq
  have hselectors : o.selectors = o'.selectors := by rw [Rule.selectors, Rule.selectors, hselector]
  have hproperties : o.declarations.map (·.property) = o'.declarations.map (·.property) := by
    simpa [Function.comp_def] using congrArg (List.map Prod.fst) hdeclarations
  refine ⟨o, ho, hselectors, fun t => ?_⟩
  have hdeclares : ∀ o : Rule, (∃ d ∈ o.declarations, d.property = t.property) ↔
      t.property ∈ o.declarations.map (·.property) := fun o => List.mem_map.symm
  rw [Rule.Serves, Rule.Serves, hselectors, hdeclares, hdeclares, hproperties]

theorem selector_owner?_of_skeleton {s s' : Stylesheet} (h : s'.skeleton = s.skeleton) (p : Place) :
    (s'.owner? p).map (·.selector) = (s.owner? p).map (·.selector) := by
  have hrule := congrArg (fun l => (l[p.rule]?).map Prod.fst) h
  simpa [skeleton, owner?, Function.comp_def] using hrule

/-! ## Sheets that keep their tokens apart -/

/-- In each value `ref(` stands once at most. -/
def SingleStarts (s : Stylesheet) : Prop :=
  ∀ r ∈ s.rules, ∀ d ∈ r.declarations, Text.occurrences tokenStart d.value ≤ 1

instance decSingleStarts (s : Stylesheet) : Decidable s.SingleStarts :=
  inferInstanceAs (Decidable (∀ r ∈ s.rules, _))

/-- What is put for the token of a reference makes up no `ref(` together with its neighbours. -/
def KeepsApart (s : Stylesheet) (r : Reference) : Prop :=
  ∀ m ∈ (s.value? r.place).bind (Text.cut? r.token), Text.Apart tokenStart m.1 m.2

instance decKeepsApart (s : Stylesheet) (r : Reference) : Decidable (s.KeepsApart r) :=
  Option.decidableForallMem _

/-- A value that says the same in other rules once its reference is served: if it has no token, then
`ref(` does not stand in it, and if its token is left, then the token does not name its rule. -/
def Portable (scope : Scope) (s : Stylesheet) (q : Place) : Prop :=
  (s.reference? q = none → ∀ v ∈ s.value? q, ¬ tokenStart <:+: v) ∧
    ∀ r ∈ s.reference? q, s.supply? scope r.target = none → ownSelector ∉ r.token

instance decPortable (scope : Scope) (s : Stylesheet) (q : Place) :
    Decidable (s.Portable scope q) :=
  @instDecidableAnd _ _ (inferInstanceAs (Decidable (_ → _))) (Option.decidableForallMem _)

/-- Tokens that are replaced keep apart what stands around them, and what is taken is portable. -/
structure Unmixed (scope : Scope) (s : Stylesheet) : Prop where
  apart : ∀ r ∈ s.references, s.supply? scope r.target ≠ none → s.KeepsApart r
  portable : ∀ r ∈ s.references, ∀ q ∈ s.source? r.target, s.Portable scope q

instance decUnmixed (scope : Scope) (s : Stylesheet) : Decidable (s.Unmixed scope) :=
  decidable_of_iff
    ((∀ r ∈ s.references, s.supply? scope r.target ≠ none → s.KeepsApart r) ∧
      ∀ r ∈ s.references, ∀ q ∈ s.source? r.target, s.Portable scope q)
    ⟨fun h => ⟨h.1, h.2⟩, fun h => ⟨h.apart, h.portable⟩⟩

section Once
variable {s : Stylesheet} (hsingle : s.SingleStarts)
include hsingle

/-- Behind the beginning of a token `ref(` does not stand again. -/
theorem SingleStarts.not_isInfix_behind {p : Place} {d : Declaration} {before after : Text}
    {t : RefToken} (hd : s.declaration? p = some d)
    (hfind : RefToken.find? d.value = some (before, t, after)) :
    ¬ tokenStart <:+: t.tail ++ after := by
  have honce : ∀ p v, s.value? p = some v → Text.occurrences tokenStart v ≤ 1 :=
    forall_value?_iff.mpr hsingle
  exact RefToken.not_isInfix_behind hfind (honce p d.value (by simp [value?, hd]))

theorem Holds.not_isInfix {p : Place} {before after : Text} {r : Reference}
    (h : s.Holds p before r after) : ¬ tokenStart <:+: before ∧ ¬ tokenStart <:+: after := by
  obtain ⟨d, o, t, hd, -, hfind, -⟩ := h
  refine ⟨RefToken.not_isInfix_before hfind, fun h => ?_⟩
  exact hsingle.not_isInfix_behind hd hfind (h.trans (List.suffix_append _ _).isInfix)

theorem SingleStarts.not_isInfix_fallback {r : Reference} (hr : r ∈ s.references) {f : Text}
    (hf : r.fallback = some f) : ¬ tokenStart <:+: f := by
  obtain ⟨d, o, before, t, after, hd, -, hfind, ht⟩ := exists_find?_of_mem_references hr
  rw [← ht] at hf
  obtain ⟨a, b, hab⟩ := RefToken.exists_of_fallback_reference hf
  refine fun h => hsingle.not_isInfix_behind hd hfind (h.trans ?_)
  exact ⟨t.selector ++ ',' :: t.property ++ ',' :: a, b ++ ')' :: after, by
    simp [RefToken.tail, hab]⟩

end Once

/-! ## What a run leaves -/

/-- What stands at a place after a run: no `ref(` at all, a value of the sheet without a token, or
the token of a reference that is left, at its place or able to travel. -/
inductive Remains (scope : Scope) (s : Stylesheet) (p : Place) (v : Text) : Prop
  | clear : ¬ tokenStart <:+: v → Remains scope s p v
  | unread : s.reference? p = none → s.value? p = some v → Remains scope s p v
  | left {before after : Text} {t : RefToken} {q : Place} {o : Rule} :
      RefToken.find? v = some (before, t, after) → s.owner? q = some o →
      s.reference? q = some (t.reference o.selector q) →
      s.supply? scope (t.reference o.selector q).target = none →
      q = p ∨ ownSelector ∉ t.text → Remains scope s p v

section Run
variable {scope : Scope} {s s' : Stylesheet} (hsingle : s.SingleStarts)
  (hunmixed : s.Unmixed scope)
include hsingle hunmixed

/-- A text that is put for a token brings its own token into the value, and no other. -/
theorem Holds.between {p : Place} {before after w : Text} {r : Reference}
    (h : s.Holds p before r after) (hsupply : s.supply? scope r.target ≠ none) :
    (¬ tokenStart <:+: w → ¬ tokenStart <:+: before ++ w ++ after) ∧
      ∀ a t b, RefToken.find? w = some (a, t, b) →
        RefToken.find? (before ++ w ++ after) = some (before ++ a, t, b ++ after) := by
  obtain ⟨hbefore, hafter⟩ := h.not_isInfix hsingle
  have hr := h.reference?
  have happart : Text.Apart tokenStart before after := by
    have hkeeps := hunmixed.apart r (mem_references_of_reference? hr) hsupply
    obtain ⟨d, o, t, hd, -, hfind, rfl⟩ := h
    exact hkeeps (before, after)
      (by simp [RefToken.reference, Stylesheet.value?, hd, RefToken.cut?_text hfind])
  exact ⟨Text.not_isInfix_between happart hbefore hafter,
    fun a t b => RefToken.find?_between happart hbefore hafter⟩

/-- What a declaration comes to has no token but one that is left. -/
theorem Resolves.remains {p : Place} {v : Text} (h : s.Resolves scope p v) :
    s.Remains scope p v := by
  -- along the chain of sources: each takes over what remains of the one before
  induction h with
  | @stays p d hd hnone =>
      cases hr : s.reference? p with
      | none => exact .unread hr (by simp [value?, hd])
      | some r =>
          obtain ⟨before, after, d', o, t, hd', ho, hfind, rfl⟩ := exists_holds hr
          obtain rfl := Option.some.inj (hd.symm.trans hd')
          exact .left hfind ho hr (hnone _ hr) (.inl rfl)
  | fallback hold hf =>
      obtain ⟨x, hx, -, hxf⟩ := Asked.exists_of_fallback? (supply?_eq_fallback_iff.mp hf).2
      obtain ⟨hclear, -⟩ := hold.between hsingle hunmixed (by simp [hf])
      exact .clear (hclear (hsingle.not_isInfix_fallback hx hxf))
  | @source p q before w after r hold hq hw ih =>
      obtain ⟨hclear, hfinds⟩ := hold.between hsingle hunmixed (w := w) (by simp [hq])
      obtain ⟨hunread, hleft⟩ := hunmixed.portable r (mem_references_of_reference? hold.reference?)
        q (source?_eq_some_iff.mpr (supply?_eq_declaration_iff.mp hq))
      cases ih with
      | clear h => exact .clear (hclear h)
      | unread hr hv => exact .clear (hclear (hunread hr w hv))
      | left hfind ho hr hnone htravels =>
          -- the token leaves its place here, or it left before
          refine .left (hfinds _ _ _ hfind) ho hr hnone (.inr ?_)
          rcases htravels with rfl | htravels
          · exact hleft _ hr hnone
          · exact htravels

/-- What a resolved sheet asks for was asked before, and it is left. -/
theorem IsResolution.exists_left (h : s.IsResolution scope s') {r' : Reference}
    (hr' : r' ∈ s'.references) :
    ∃ r ∈ s.references, s.supply? scope r.target = none ∧ r.target = r'.target ∧
      r.fallback = r'.fallback := by
  obtain ⟨d', o', before, t, after, hd', ho', hfind, ht⟩ := exists_find?_of_mem_references hr'
  have hremains := (h.resolves r'.place d' hd').remains hsingle hunmixed
  generalize r'.place = p at *
  subst ht
  cases hremains with
  | clear hclear =>
      rw [RefToken.find?_eq_none_of_not_isInfix hclear] at hfind
      cases hfind
  | unread hnone hv =>
      -- a token of the old value would have been read
      obtain ⟨d, hd, heq⟩ := Option.map_eq_some_iff.mp hv
      rw [reference?_eq_none_iff hd, heq, hfind] at hnone
      cases hnone
  | @left _ _ t' q o hfind' ho hr hnone htravels =>
      obtain rfl : t' = t := by
        rw [hfind] at hfind'
        simp only [Option.some.injEq, Prod.mk.injEq] at hfind'
        exact hfind'.2.1.symm
      refine ⟨_, mem_references_of_reference? hr, hnone, ?_, rfl⟩
      rcases htravels with rfl | htravels
      · have hselector := selector_owner?_of_skeleton h.skeleton q
        simp only [ho, ho', Option.map_some, Option.some.injEq] at hselector
        rw [hselector]
      · exact t'.target_reference_of_not_mem htravels _ _ _ _

/-- Where the sheet is unmixed, a second run leaves the result of the first as it is. -/
theorem resolve_resolved {report : Report} (h : s.resolve scope = (s', .ok report)) :
    s'.resolve scope = (s', .ok ⟨0, 0, s'.references.length⟩) := by
  obtain ⟨hresolution, -⟩ := isResolution_of_resolve h
  obtain ⟨hcovered, -⟩ := exists_resolve_eq_ok_iff.mp ⟨s', report, h⟩
  have hskeleton := hresolution.skeleton
  have hleft : ∀ r' ∈ s'.references, ∃ r ∈ s.references, s.supply? scope r.target = none ∧
      r.target = r'.target ∧ r.fallback = r'.fallback := fun r' =>
    hresolution.exists_left hsingle hunmixed
  refine resolve_of_unsupplied ?_ fun r' hr' => ?_
  · -- what is left was asked of a selector that a rule has, in both sheets
    refine List.filter_eq_nil_iff.mpr fun sel hsel => ?_
    obtain ⟨r', hr', rfl⟩ := Asked.mem_selectors.mp hsel
    obtain ⟨r, hr, hnone, htarget, -⟩ := hleft r' hr'
    obtain ⟨o, ho, hso⟩ := exists_rule_of_supply?_eq_none hcovered hr hnone
    obtain ⟨o', ho', hselectors, -⟩ := exists_rule_of_skeleton hskeleton.symm ho
    rw [← hselectors, htarget] at hso
    simp only [decide_eq_true_eq, not_and]
    exact fun hrules => absurd hso (hrules o' ho')
  · obtain ⟨r, hr, hnone, htarget, -⟩ := hleft r' hr'
    rw [← htarget, supply?_eq_none_iff]
    refine ⟨fun o' ho' hserves => ?_, Asked.fallback?_eq_none_iff.mpr fun x' hx' _ => ?_⟩
    · obtain ⟨o, ho, -, hiff⟩ := exists_rule_of_skeleton hskeleton ho'
      exact (supply?_eq_none_iff.mp hnone).1 o ho ((hiff _).mpr hserves)
    · obtain ⟨x, hx, hxnone, -, hfallback⟩ := hleft x' hx'
      exact hfallback.symm.trans (fallback_of_supply?_eq_none hx hxnone)

end Run

/-- A token that is left, and a rule that takes it over; neither names its own rule. -/
def waiting : Stylesheet where
  rules :=
    [⟨".a".toList, [⟨"color".toList, "ref(.c, margin)".toList, false⟩], none⟩,
      ⟨".b".toList, [⟨"color".toList, "ref(.a, color)".toList, false⟩], none⟩,
      ⟨".c".toList, [⟨"color".toList, "red".toList, false⟩], none⟩]

theorem resolve_resolved_waiting :
    waiting.SingleStarts ∧ waiting.Unmixed .selector ∧
      ∃ s', waiting.resolve .selector = (s', .ok ⟨1, 0, 1⟩) ∧
        s'.value? ⟨1, 0⟩ = some "ref(.c, margin)".toList ∧
        s'.resolve .selector = (s', .ok ⟨0, 0, 2⟩) := by
  have hsingle : waiting.SingleStarts := by decide +kernel
  have hunmixed : waiting.Unmixed .selector := by decide +kernel
  have h : waiting.resolve .selector =
      ((waiting.resolve .selector).1, .ok ⟨1, 0, 1⟩) := by decide +kernel
  have hlength : (waiting.resolve .selector).1.references.length = 2 := by decide +kernel
  refine ⟨hsingle, hunmixed, _, h, by decide +kernel, ?_⟩
  rw [resolve_resolved hsingle hunmixed h, hlength]

/-- A token that names its own rule and is left, and a rule that takes it over. -/
def travelling : Stylesheet where
  rules :=
    [⟨".a".toList, [⟨"color".toList, "ref(&, margin)".toList, false⟩], none⟩,
      ⟨".b".toList, [⟨"margin".toList, "1px".toList, false⟩,
        ⟨"color".toList, "ref(.a, color)".toList, false⟩], none⟩]

/-- A second run can find what the first left: the token that was copied asks for a margin of its
new rule. -/
theorem not_resolve_resolved_travelling :
    travelling.SingleStarts ∧
      (travelling.resolve .selector).2 = .ok ⟨1, 0, 1⟩ ∧
      (travelling.resolve .selector).1.value? ⟨1, 1⟩ = some "ref(&, margin)".toList ∧
      ((travelling.resolve .selector).1.resolve .selector).2 = .ok ⟨1, 0, 1⟩ ∧
      ((travelling.resolve .selector).1.resolve .selector).1.value? ⟨1, 1⟩ =
        some "1px".toList := by
  decide +kernel

end Stylesheet

end StyleRef

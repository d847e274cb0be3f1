import StyleRef.Proofs.Outcome
import Mathlib.Data.List.Infix

/-
# Round brackets

A token ends at the first closing bracket after its first comma, wherever the
brackets in it were opened.  So a token can leave brackets open that are closed
behind it, as `ref(.a, color, rgb(0,0,0)` does when the fallback is meant to be
`rgb(0,0,0)`.  Then the fallback leaves as many open as its token, and a value
that takes it is balanced; but a value that takes what was found under `.a` is
left with the closing bracket of `rgb`.

The surplus of a text is what it opens without closing it.  A resolution of
balanced values is balanced exactly when each token that is replaced has the
surplus of what it is replaced by.
-/

namespace StyleRef

namespace Text

/-! ## Balanced texts -/

def surplus (s : Text) : Int := s.count '(' - s.count ')'

/-- A text that nowhere closes a bracket which it has not opened. -/
def OpensFirst (s : Text) : Prop := ∀ a ∈ s.inits, 0 ≤ surplus a

/-- A text that closes all brackets which it opens, and only those. -/
structure Balanced (s : Text) : Prop where
  opensFirst : s.OpensFirst
  even : s.surplus = 0

instance decOpensFirst (s : Text) : Decidable s.OpensFirst :=
  inferInstanceAs (Decidable (∀ a ∈ s.inits, _))

instance decBalanced (s : Text) : Decidable s.Balanced :=
  decidable_of_iff (s.OpensFirst ∧ s.surplus = 0) ⟨fun h => ⟨h.1, h.2⟩, fun h => ⟨h.1, h.2⟩⟩

@[simp] theorem surplus_append (s t : Text) : (s ++ t).surplus = s.surplus + t.surplus := by
  simp only [surplus, List.count_append, Int.natCast_add]
  omega

theorem opensFirst_iff {s : Text} : s.OpensFirst ↔ ∀ a, a <+: s → 0 ≤ surplus a := by
  simp [OpensFirst]

theorem opensFirst_of_not_mem {s : Text} (h : ')' ∉ s) : s.OpensFirst := by
  rw [opensFirst_iff]
  intro a ha
  have : a.count ')' = 0 := List.count_eq_zero.mpr fun hmem => h (ha.subset hmem)
  simp only [surplus, this]
  omega

/-- A beginning of two texts ends in the first or reaches into the second. -/
theorem isPrefix_append_iff {s t a : Text} :
    a <+: s ++ t ↔ a <+: s ∨ ∃ b, b <+: t ∧ a = s ++ b := by
  constructor
  · rintro ⟨c, hc⟩
    rcases List.append_eq_append_iff.mp hc with ⟨b, rfl, -⟩ | ⟨b, rfl, hb⟩
    · exact Or.inl (List.prefix_append a b)
    · exact Or.inr ⟨b, ⟨c, hb.symm⟩, rfl⟩
  · rintro (h | ⟨b, hb, rfl⟩)
    · exact h.trans (List.prefix_append s t)
    · exact (List.prefix_append_right_inj s).mpr hb

/-- A part of a balanced text can be exchanged for one that opens first and has its surplus, and for
no other that opens first. -/
theorem Balanced.exchange_iff {before t after w : Text} (h : Balanced (before ++ t ++ after))
    (hw : w.OpensFirst) : Balanced (before ++ w ++ after) ↔ t.surplus = w.surplus := by
  have htotal := h.even
  simp only [surplus_append] at htotal
  constructor
  · intro h'
    have htotal' := h'.even
    simp only [surplus_append] at htotal'
    omega
  · intro heq
    have hfirst := opensFirst_iff.mp h.opensFirst
    have hbefore : ∀ b, b <+: before → 0 ≤ surplus b := by
      intro b hb
      refine hfirst b ?_
      rw [isPrefix_append_iff, isPrefix_append_iff]
      exact Or.inl (Or.inl hb)
    refine ⟨opensFirst_iff.mpr fun a ha => ?_, by simp only [surplus_append]; omega⟩
    rw [isPrefix_append_iff, isPrefix_append_iff] at ha
    rcases ha with (ha | ⟨b, hb, rfl⟩) | ⟨b, hb, rfl⟩
    · exact hbefore a ha
    · have h₁ := hbefore before (List.prefix_refl _)
      have h₂ := opensFirst_iff.mp hw b hb
      simp only [surplus_append]
      omega
    · -- behind the exchanged part as many brackets are open as before the exchange
      have := hfirst (before ++ t ++ b) ((List.prefix_append_right_inj _).mpr hb)
      simp only [surplus_append] at this ⊢
      omega

end Text

/-! ## Fallbacks -/

/-- The fallback part of a token ends before the first closing bracket. -/
theorem RefToken.not_mem_fallback_of_read? {s rest f : Text} {t : RefToken}
    (h : read? s = some (t, rest)) (hf : t.fallback = some f) : ')' ∉ f := by
  simp only [read?, Option.bind_eq_some_iff, Option.map_eq_some_iff, Prod.exists] at h
  obtain ⟨a, s₁, -, inner, s₂, h₂, h₃⟩ := h
  obtain ⟨-, hinner⟩ := Text.breakAt?_eq_some_iff.mp h₂
  split at h₃
  · obtain ⟨rfl, -⟩ := Prod.mk.inj h₃
    cases hf
  · next b c h₄ =>
    obtain ⟨rfl, -⟩ := Prod.mk.inj h₃
    obtain rfl := Option.some.inj hf
    obtain ⟨rfl, -⟩ := Text.breakAt?_eq_some_iff.mp h₄
    exact fun hmem => hinner (by simp [hmem])

theorem Stylesheet.not_mem_of_fallback {s : Stylesheet} {r : Reference} (hr : r ∈ s.references)
    {f : Text} (hf : r.fallback = some f) : ')' ∉ f := by
  obtain ⟨d, o, before, t, after, -, -, hfind, ht⟩ := exists_find?_of_mem_references hr
  rw [← ht] at hf
  simp only [RefToken.find?, Option.bind_eq_some_iff, Option.map_eq_some_iff, Prod.exists,
    Prod.mk.injEq] at hfind
  obtain ⟨_, tail, -, t', rest, hread, -, rfl, -⟩ := hfind
  obtain ⟨a, b, hab⟩ := RefToken.exists_of_fallback_reference hf
  exact fun hmem => RefToken.not_mem_fallback_of_read? hread hab (by simp [hmem])

/-! ## Sheets -/

/-- The surplus of what a supply puts in: none for a value that is balanced, and that of the text
for a fallback. -/
def Supply.surplus : Supply → Int
  | .declaration _ => 0
  | .fallback f => f.surplus

namespace Stylesheet

def Balanced (s : Stylesheet) : Prop :=
  ∀ r ∈ s.rules, ∀ d ∈ r.declarations, Text.Balanced d.value

instance decBalanced (s : Stylesheet) : Decidable s.Balanced :=
  inferInstanceAs (Decidable (∀ r ∈ s.rules, _))

/-- Every token that is replaced has the surplus of what it is replaced by. -/
def EvenlySupplied (scope : Scope) (s : Stylesheet) : Prop :=
  ∀ r ∈ s.references, ∀ x ∈ s.supply? scope r.target, r.token.surplus = x.surplus

instance decEvenlySupplied (scope : Scope) (s : Stylesheet) :
    Decidable (s.EvenlySupplied scope) :=
  @List.decidableBAll _ _ (fun _ => Option.decidableForallMem _) _

theorem balanced_iff {s : Stylesheet} :
    s.Balanced ↔ ∀ p v, s.value? p = some v → Text.Balanced v :=
  forall_value?_iff.symm

section Resolution
variable {scope : Scope} {s : Stylesheet}

theorem opensFirst_of_supply? {t : Target} {f : Text}
    (h : s.supply? scope t = some (.fallback f)) : Text.OpensFirst f := by
  obtain ⟨r, hr, -, hf⟩ := Asked.exists_of_fallback? (supply?_eq_fallback_iff.mp h).2
  exact Text.opensFirst_of_not_mem (not_mem_of_fallback hr hf)

/-- A declaration of a balanced sheet with even supplies comes to a balanced value. -/
theorem Resolves.balanced (hbalanced : s.Balanced) (heven : s.EvenlySupplied scope) {p : Place}
    {v : Text} (h : s.Resolves scope p v) : Text.Balanced v := by
  have hvalue := balanced_iff.mp hbalanced
  have hsurplus : ∀ {p : Place} {r : Reference} {x : Supply}, s.reference? p = some r →
      s.supply? scope r.target = some x → r.token.surplus = x.surplus := fun hr hx =>
    heven _ (mem_references_of_reference? hr) _ hx
  induction h with
  | @stays p d hd _ => exact hvalue p d.value (by simp [value?, hd])
  | fallback hold hf =>
      exact ((hvalue _ _ hold.value?).exchange_iff (opensFirst_of_supply? hf)).mpr
        (hsurplus hold.reference? hf)
  | source hold hq _ ih =>
      refine ((hvalue _ _ hold.value?).exchange_iff ih.opensFirst).mpr ?_
      rw [hsurplus hold.reference? hq, ih.even]
      rfl

/-- Resolving a sheet of balanced values leaves balanced values exactly when each token that is
replaced has the surplus of what it is replaced by. -/
theorem balanced_resolve_iff {s' : Stylesheet} {report : Report}
    (h : s.resolve scope = (s', .ok report)) (hbalanced : s.Balanced) :
    s'.Balanced ↔ s.EvenlySupplied scope := by
  obtain ⟨hresolution, -⟩ := isResolution_of_resolve h
  constructor
  · intro hbalanced' r hr x hx
    obtain ⟨before, after, hold⟩ := exists_holds (mem_references.mp hr)
    have hvalue := balanced_iff.mp hbalanced _ _ hold.value?
    obtain ⟨d, _, _, hd, -⟩ := id hold
    obtain ⟨v, hv⟩ := hresolution.exists_value? hd
    have hcomes := hresolution.value?_eq_some_iff.mp hv
    have hv' := balanced_iff.mp hbalanced' _ _ hv
    cases x with
    | fallback f =>
        rw [hcomes.of_supply?_eq_fallback hold hx] at hv'
        exact (hvalue.exchange_iff (opensFirst_of_supply? hx)).mp hv'
    | declaration q =>
        obtain ⟨w, hw, rfl⟩ := hcomes.of_supply?_eq_declaration hold hx
        have hw' := balanced_iff.mp hbalanced' _ _ (hresolution.value?_eq_some_iff.mpr hw)
        rw [(hvalue.exchange_iff hw'.opensFirst).mp hv', hw'.even]
        rfl
  · intro heven
    refine balanced_iff.mpr fun p v hv => ?_
    exact (hresolution.value?_eq_some_iff.mp hv).balanced hbalanced heven

end Resolution

/-- The fallback of the second rule is a call of a function, and it is not needed. -/
def spareCall : Stylesheet where
  rules :=
    [⟨".a".toList, [⟨"color".toList, "blue".toList, false⟩], none⟩,
      ⟨".b".toList, [⟨"color".toList, "ref(.a, color, rgb(0,0,0))".toList, false⟩], none⟩]

/-- A closing bracket is left over where a call as fallback gives way to a value that is found. -/
theorem not_balanced_spareCall :
    spareCall.Balanced ∧
      (spareCall.resolve .selector).2 = .ok ⟨1, 0, 0⟩ ∧
      (spareCall.resolve .selector).1.value? ⟨1, 0⟩ = some "blue)".toList ∧
      ¬ (spareCall.resolve .selector).1.Balanced := by
  decide +kernel

/-- The fallback of the only rule is a call of a function, and it is needed. -/
def neededCall : Stylesheet where
  rules := [⟨".b".toList, [⟨"color".toList, "ref(.a, color, rgb(0,0,0))".toList, false⟩], none⟩]

theorem balanced_resolve_iff_neededCall :
    neededCall.Balanced ∧ ∃ s', neededCall.resolve .selector = (s', .ok ⟨0, 1, 0⟩) ∧
      neededCall.EvenlySupplied .selector ∧ s'.Balanced := by
  have hbalanced : neededCall.Balanced := by decide +kernel
  have h : neededCall.resolve .selector =
      ((neededCall.resolve .selector).1, .ok ⟨0, 1, 0⟩) := by decide +kernel
  have heven : neededCall.EvenlySupplied .selector := by decide +kernel
  exact ⟨hbalanced, _, h, heven, (balanced_resolve_iff h hbalanced).mpr heven⟩

end Stylesheet

end StyleRef

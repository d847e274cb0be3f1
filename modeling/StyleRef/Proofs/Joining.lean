import StyleRef.Proofs.Substitution
import Mathlib.Data.List.Infix

/-
# Tokens in joined texts

When a value is put between two other texts, a token of it is still a token, and
it is read in the same way: where a token ends depends on its own text only.
But it is the token of the new value only if `ref(` stands nowhere before it,
and joining texts can make a `ref(` that stood in none of them.

Two texts are *apart* for a pattern when this cannot happen between them,
whatever is put there: the first does not end in a beginning of the pattern and
the second does not start with an end of it.
-/

namespace StyleRef

namespace Text

/-! ## How often a pattern stands in a text -/

/-- The number of places at which the pattern stands. -/
def occurrences (pattern s : Text) : Nat := s.tails.countP fun t => pattern.isPrefixOf t

theorem occurrences_le_append (pattern a b : Text) :
    occurrences pattern b ≤ occurrences pattern (a ++ b) := by
  induction a with
  | nil => exact Nat.le_refl _
  | cons c a ih =>
      refine ih.trans ?_
      simp only [occurrences, List.cons_append, List.tails_cons, List.countP_cons]
      exact Nat.le_add_right _ _

theorem occurrences_lt_append {pattern : Text} (hp : pattern ≠ []) (b : Text) :
    occurrences pattern b < occurrences pattern (pattern ++ b) := by
  cases pattern with
  | nil => exact absurd rfl hp
  | cons c pattern =>
      have hle := occurrences_le_append (c :: pattern) pattern b
      have hstep : occurrences (c :: pattern) (c :: (pattern ++ b)) =
          occurrences (c :: pattern) (pattern ++ b) + 1 := by
        have hprefix : (c :: pattern).isPrefixOf (c :: (pattern ++ b)) = true := by simp
        rw [occurrences, List.tails_cons, List.countP_cons, if_pos hprefix]
        rfl
      rw [List.cons_append, hstep]
      omega

/-- Behind the only place of a pattern the pattern does not stand again. -/
theorem not_isInfix_of_occurrences_le_one {pattern a b : Text} (hp : pattern ≠ [])
    (h : occurrences pattern (a ++ pattern ++ b) ≤ 1) : ¬ pattern <:+: b := by
  rintro ⟨x, y, rfl⟩
  have h₁ := occurrences_le_append pattern a (pattern ++ (x ++ pattern ++ y))
  have h₂ := occurrences_lt_append hp (x ++ pattern ++ y)
  have h₃ := occurrences_le_append pattern x (pattern ++ y)
  have h₄ := occurrences_lt_append hp y
  simp only [List.append_assoc] at h h₁ h₂ h₃
  omega

/-! ## Between two texts -/

/-- No beginning of the pattern ends the first text, and no end of it starts the second. -/
def Apart (pattern before after : Text) : Prop :=
  (∀ a ∈ pattern.inits, a ≠ [] → ¬ a <:+ before) ∧ ∀ b ∈ pattern.tails, b ≠ [] → ¬ b <+: after

instance decApart (pattern before after : Text) : Decidable (Apart pattern before after) :=
  inferInstanceAs (Decidable (_ ∧ _))

section Between
variable {pattern before after w : Text} (happart : Apart pattern before after)
  (hbefore : ¬ pattern <:+: before) (hafter : ¬ pattern <:+: after)
include happart hbefore hafter

/-- Between texts that are apart, the pattern stands only where it stood before. -/
theorem exists_eq_of_between {a b : Text} (e : before ++ (w ++ after) = a ++ (pattern ++ b)) :
    ∃ a' b', w = a' ++ pattern ++ b' ∧ a = before ++ a' := by
  -- a place that begins behind the first text
  have behind : ∀ x, w ++ after = x ++ (pattern ++ b) → ∃ b', w = x ++ pattern ++ b' := by
    intro x hx
    rcases List.append_eq_append_iff.mp hx with ⟨y, rfl, hy⟩ | ⟨y, rfl, hy⟩
    · exact absurd ⟨y, b, by rw [hy, List.append_assoc]⟩ hafter
    · rcases List.append_eq_append_iff.mp hy with ⟨z, rfl, rfl⟩ | ⟨z, rfl, rfl⟩
      · exact ⟨z, by simp⟩
      · -- it ends in the second text
        by_cases hz : z = []
        · subst hz
          exact ⟨[], by simp⟩
        · exact absurd (List.prefix_append z b) (happart.2 z (by simp) hz)
  rcases List.append_eq_append_iff.mp e with ⟨x, rfl, hx⟩ | ⟨x, rfl, hx⟩
  · obtain ⟨b', hw⟩ := behind x hx
    exact ⟨x, b', hw, rfl⟩
  · by_cases hempty : x = []
    · subst hempty
      obtain ⟨b', hw⟩ := behind [] hx.symm
      exact ⟨[], b', hw, by simp⟩
    · -- it begins in the first text
      rcases List.append_eq_append_iff.mp hx with ⟨y, rfl, -⟩ | ⟨y, rfl, -⟩
      · exact absurd ⟨a, y, by simp⟩ hbefore
      · exact absurd (List.suffix_append a x) (happart.1 x (by simp) hempty)

theorem not_isInfix_between (hw : ¬ pattern <:+: w) : ¬ pattern <:+: before ++ w ++ after := by
  rintro ⟨a, b, e⟩
  obtain ⟨a', b', rfl, -⟩ := exists_eq_of_between happart hbefore hafter (a := a) (b := b)
    (by simpa using e.symm)
  exact hw ⟨a', b', rfl⟩

/-- The first place of the pattern stays the first. -/
theorem cut?_between {a b : Text} (h : cut? pattern w = some (a, b)) :
    cut? pattern (before ++ w ++ after) = some (before ++ a, b ++ after) := by
  obtain ⟨rfl, hfirst⟩ := cut?_eq_some_iff.mp h
  refine cut?_eq_some_iff.mpr ⟨by simp, fun a' b' e => ?_⟩
  obtain ⟨x, y, hxy, rfl⟩ := exists_eq_of_between happart hbefore hafter (a := a') (b := b')
    (by rw [← List.append_assoc, e, List.append_assoc])
  have := hfirst x y hxy
  simp only [List.length_append]
  omega

end Between

theorem breakAt?_append {c : Char} {s a b : Text} (h : breakAt? c s = some (a, b)) (t : Text) :
    breakAt? c (s ++ t) = some (a, b ++ t) := by
  obtain ⟨rfl, hc⟩ := breakAt?_eq_some_iff.mp h
  exact breakAt?_eq_some_iff.mpr ⟨by simp, hc⟩

end Text

namespace RefToken

/-! ## Tokens -/

theorem read?_append {s rest : Text} {t : RefToken} (h : read? s = some (t, rest)) (x : Text) :
    read? (s ++ x) = some (t, rest ++ x) := by
  simp only [read?, Option.bind_eq_some_iff, Option.map_eq_some_iff, Prod.exists] at h ⊢
  obtain ⟨a, s₁, h₁, inner, s₂, h₂, h₃⟩ := h
  refine ⟨a, s₁ ++ x, Text.breakAt?_append h₁ x, inner, s₂ ++ x, Text.breakAt?_append h₂ x, ?_⟩
  split at h₃ <;> simp_all

/-- Between texts that are apart, the token of a value stays its token. -/
theorem find?_between {before after w a b : Text} {t : RefToken}
    (happart : Text.Apart tokenStart before after) (hbefore : ¬ tokenStart <:+: before)
    (hafter : ¬ tokenStart <:+: after) (h : find? w = some (a, t, b)) :
    find? (before ++ w ++ after) = some (before ++ a, t, b ++ after) := by
  simp only [find?, Option.bind_eq_some_iff, Option.map_eq_some_iff, Prod.exists,
    Prod.mk.injEq] at h ⊢
  obtain ⟨a, s, hcut, t, b, hread, rfl, rfl, rfl⟩ := h
  exact ⟨_, _, Text.cut?_between happart hbefore hafter hcut, t, _, read?_append hread after,
    rfl, rfl, rfl⟩

theorem find?_eq_none_of_not_isInfix {value : Text} (h : ¬ tokenStart <:+: value) :
    find? value = none := by
  rw [find?, Text.cut?_eq_none_iff.mpr h, Option.bind_none]

/-- In front of the token of a value `ref(` does not stand. -/
theorem not_isInfix_before {value before after : Text} {t : RefToken}
    (h : find? value = some (before, t, after)) : ¬ tokenStart <:+: before := by
  rintro ⟨a, b, rfl⟩
  have hlen := Text.length_le_of_cut? (cut?_tokenStart h)
    (by rw [eq_of_find? h, List.append_assoc, List.append_assoc])
  simp only [List.length_append, tokenStart, List.length_cons] at hlen
  omega

/-- Where `ref(` stands once in a value with a token, it is that of the token. -/
theorem not_isInfix_behind {value before after : Text} {t : RefToken}
    (h : find? value = some (before, t, after)) (honce : Text.occurrences tokenStart value ≤ 1) :
    ¬ tokenStart <:+: t.tail ++ after := by
  refine Text.not_isInfix_of_occurrences_le_one (a := before) (by simp [tokenStart]) ?_
  rw [eq_of_find? h] at honce
  simpa [text] using honce

end RefToken

end StyleRef

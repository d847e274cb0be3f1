import StyleRef.Reference

/-
# Substitution hits the token

The writing of a value searches the value for the text of its token, although
the place of the token was known when the token was read.  Here it is shown that
the search finds that place again: a token begins with `ref(`, and the token of a
value is read where `ref(` stands first, so nothing in front of it can be taken
for it, however often its text is repeated behind it.
-/

namespace StyleRef

namespace Text

/-! ## The first place of a pattern -/

/-- The pattern stands nowhere before the place that `cut?` returns. -/
theorem length_le_of_cut? {pattern s a b : Text} (h : cut? pattern s = some (a, b)) :
    ∀ {a' b' : Text}, s = a' ++ pattern ++ b' → a.length ≤ a'.length := by
  induction s generalizing a with
  | nil =>
      intro a' b' _
      have := eq_of_cut? h
      simp_all
  | cons c s ih =>
      intro a' b' e
      simp only [cut?] at h
      split at h
      · simp only [Option.some.injEq, Prod.mk.injEq] at h
        simp [← h.1]
      · next hp =>
        simp only [Option.map_eq_some_iff, Prod.exists, Prod.mk.injEq] at h
        obtain ⟨a₁, b₁, hcut, rfl, rfl⟩ := h
        cases a' with
        | nil =>
            -- the pattern would stand at the very front
            rw [List.nil_append] at e
            rw [isPrefixOf?_eq_some_iff.mpr e] at hp
            cases hp
        | cons x a' =>
            simp only [List.cons_append, List.cons.injEq] at e
            have := ih hcut e.2
            simp only [List.length_cons]
            omega

theorem eq_of_append_eq {a a' m b b' : Text} (h : a ++ m ++ b = a' ++ m ++ b')
    (hlen : a.length = a'.length) : a = a' ∧ b = b' := by
  rw [List.append_assoc, List.append_assoc] at h
  obtain ⟨rfl, hm⟩ := List.append_inj h hlen
  exact ⟨rfl, List.append_cancel_left hm⟩

/-- `cut?` returns the two sides of the first place at which the pattern stands. -/
theorem cut?_eq_some_iff {pattern s a b : Text} :
    cut? pattern s = some (a, b) ↔
      s = a ++ pattern ++ b ∧ ∀ a' b', s = a' ++ pattern ++ b' → a.length ≤ a'.length := by
  constructor
  · intro h
    exact ⟨eq_of_cut? h, fun _ _ => length_le_of_cut? h⟩
  · rintro ⟨e, hfirst⟩
    cases hcut : cut? pattern s with
    | none =>
        exact absurd ⟨a, b, e.symm⟩ (cut?_eq_none_iff.mp hcut)
    | some c =>
        obtain ⟨a₁, b₁⟩ := c
        have e₁ := eq_of_cut? hcut
        have hlen : a₁.length = a.length :=
          Nat.le_antisymm (length_le_of_cut? hcut e) (hfirst _ _ e₁)
        obtain ⟨rfl, rfl⟩ := eq_of_append_eq (e₁.symm.trans e) hlen
        rfl

end Text

namespace RefToken

/-! ## The place of the token -/

/-- Where a value has a token, `ref(` stands for the first time. -/
theorem cut?_tokenStart {value before after : Text} {t : RefToken}
    (h : find? value = some (before, t, after)) :
    Text.cut? tokenStart value = some (before, t.tail ++ after) := by
  simp only [find?, Option.bind_eq_some_iff, Option.map_eq_some_iff, Prod.exists,
    Prod.mk.injEq] at h
  obtain ⟨b, s, hcut, t', rest, hread, rfl, rfl, rfl⟩ := h
  rw [hcut, eq_of_read? hread]

/-- The first place at which the text of the token stands is the place of the token. -/
theorem cut?_text {value before after : Text} {t : RefToken}
    (h : find? value = some (before, t, after)) :
    Text.cut? t.text value = some (before, after) := by
  refine Text.cut?_eq_some_iff.mpr ⟨eq_of_find? h, ?_⟩
  intro a b e
  -- wherever the token's text stands, `ref(` stands too
  have hstart : value = a ++ tokenStart ++ (t.tail ++ b) := by
    rw [e]
    simp [text]
  exact Text.length_le_of_cut? (cut?_tokenStart h) hstart

/-- Replacing the text of the token leaves what stands on both sides of the token. -/
theorem replaceFirst_text {value before after : Text} {t : RefToken}
    (h : find? value = some (before, t, after)) (replacement : Text) :
    Text.replaceFirst t.text replacement value = before ++ replacement ++ after := by
  simp [Text.replaceFirst, cut?_text h]

end RefToken

end StyleRef

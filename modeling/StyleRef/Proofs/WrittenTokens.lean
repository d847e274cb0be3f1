import StyleRef.Proofs.TokenGrammar
import StyleRef.Proofs.Joining
import StyleRef.Proofs.Writing

/-
# Tokens that are written into a value

A token is read where `ref(` stands first.  So what is written into a value as a token
is read back if its parts keep to the grammar and `ref(` does not stand in front of it.
The text in front may end in a part of `ref(`, and what is written may hold further
ones, but neither moves the first place: no character of `ref(` is there twice, so two
places of it never overlap (`Text.length_le_of_nodup`).

Two main statements come from this.  A target in the form of a token, with or without
a fallback, is read back as it is, if its parts are tidy and free of what the grammar
and the placeholder take for themselves (`Reference.ofValue?_renderWith`); hence no two
such targets look the same.  And the place at which the text of the token is found
again, to be replaced, is the place at which the token was read
(`Reference.replaceFirst_token`).
-/

namespace StyleRef

namespace Text

/-- A pattern without repeated characters stands first behind a text in which it does not stand. -/
theorem length_le_of_nodup {p a b a' b' : Text} (hp : p.Nodup) (ha : ¬ p <:+: a)
    (h : a ++ p ++ b = a' ++ p ++ b') : a.length ≤ a'.length := by
  rw [List.append_assoc, List.append_assoc] at h
  rcases List.append_eq_append_iff.mp h with ⟨c, rfl, -⟩ | ⟨c, rfl, hc⟩
  · simp
  · -- the other place begins `c` earlier
    rcases List.append_eq_append_iff.mp hc with ⟨d, rfl, -⟩ | ⟨d, rfl, hd⟩
    · exact absurd ⟨a', d, by simp⟩ ha
    · cases c with
      | nil => simp
      | cons x c =>
        cases d with
        | nil => exact absurd ⟨a', [], by simp⟩ ha
        | cons y d =>
          -- the pattern begins again in the middle of itself
          obtain ⟨rfl, -⟩ := List.cons.inj hd
          simp at hp

theorem trim_cons_space {s : Text} (h : s.Tidy) : trim (' ' :: s) = s := by
  have htrim := trim_of_tidy (a := [' ']) (b := []) h (by decide) nofun
  rwa [List.append_nil] at htrim

end Text

namespace RefToken

/-- The token of a value is the one in form that `ref(` does not stand in front of. -/
theorem find?_eq_some_iff_not_isInfix {value before after : Text} {t : RefToken} :
    find? value = some (before, t, after) ↔
      t.InForm ∧ value = before ++ t.text ++ after ∧ ¬ tokenStart <:+: before := by
  constructor
  · intro h
    obtain ⟨hform, heq, -⟩ := find?_eq_some_iff.mp h
    exact ⟨hform, heq, not_isInfix_before h⟩
  · rintro ⟨hform, rfl, hbefore⟩
    refine find?_eq_some_iff.mpr ⟨hform, rfl, fun a b h => ?_⟩
    have hstart : before ++ t.text ++ after = before ++ tokenStart ++ (t.tail ++ after) := by
      simp [text]
    exact Text.length_le_of_nodup (by decide) hbefore (hstart.symm.trans h)

end RefToken

namespace Target

/-- The target in the form of a token, with a fallback if one is given. -/
def renderWith (t : Target) : Option Text → Text
  | none => t.render
  | some f =>
    tokenStart ++ t.selector ++ ", ".toList ++ t.property ++ ", ".toList ++ f ++ ")".toList

/-- The parts of the target can be written in a token: they are tidy, and free of the characters
that end them there.  In the selector the placeholder would stand for something else. -/
structure Writable (t : Target) : Prop where
  selector : ',' ∉ t.selector ∧ '&' ∉ t.selector ∧ t.selector.Tidy
  property : ',' ∉ t.property ∧ ')' ∉ t.property ∧ t.property.Tidy

instance decWritable (t : Target) : Decidable t.Writable :=
  decidable_of_iff
    ((',' ∉ t.selector ∧ '&' ∉ t.selector ∧ t.selector.Tidy) ∧
      ',' ∉ t.property ∧ ')' ∉ t.property ∧ t.property.Tidy)
    ⟨fun h => ⟨h.1, h.2⟩, fun h => ⟨h.selector, h.property⟩⟩

/-- The parts of the token that a target is written as. -/
def token (t : Target) (f? : Option Text) : RefToken where
  selector := t.selector
  property := ' ' :: t.property
  fallback := f?.map (' ' :: ·)

theorem Writable.inForm_token {t : Target} (h : t.Writable) {f? : Option Text}
    (hf : ∀ f ∈ f?, ')' ∉ f) : (t.token f?).InForm where
  selector := h.selector.1
  property := by simp [token, h.property.1, h.property.2.1]
  fallback := by
    intro g hg
    obtain ⟨f, rfl, rfl⟩ := Option.map_eq_some_iff.mp hg
    simpa using hf f rfl

/-- The reference that the written token makes is the one that was written. -/
theorem Writable.reference_token {t : Target} (h : t.Writable) {f? : Option Text}
    (hf : ∀ f ∈ f?, f ≠ [] ∧ f.Tidy) (owner : Text) (place : Place) :
    (t.token f?).reference owner place = ⟨t, f?, (t.token f?).text, place⟩ := by
  have hselector : Text.expand ownSelector owner (Text.trim t.selector) = t.selector := by
    rw [Text.trim_eq_self h.selector.2.2]
    exact Text.expand_eq_self h.selector.2.1
  have hproperty : Text.trim (' ' :: t.property) = t.property :=
    Text.trim_cons_space h.property.2.2
  have hfallback : ((f?.map (' ' :: ·)).map Text.trim).filter (· ≠ []) = f? := by
    cases f? with
    | none => rfl
    | some f => simp [Text.trim_cons_space (hf f rfl).2, (hf f rfl).1]
  simp only [RefToken.reference, token, hselector, hproperty, hfallback]

theorem text_token (t : Target) (f? : Option Text) : (t.token f?).text = t.renderWith f? := by
  cases f? <;> simp [token, RefToken.text, RefToken.tail, renderWith, render]

end Target

namespace Reference

/-- A token in form is read where it is written, if `ref(` does not stand before it. -/
theorem ofValue?_of_inForm {t : RefToken} (h : t.InForm) {before : Text}
    (hbefore : ¬ tokenStart <:+: before) (after owner : Text) (place : Place) :
    ofValue? (before ++ t.text ++ after) owner place = some (t.reference owner place) := by
  have hfind : RefToken.find? (before ++ t.text ++ after) = some (before, t, after) :=
    RefToken.find?_eq_some_iff_not_isInfix.mpr ⟨h, rfl, hbefore⟩
  rw [ofValue?, hfind, Option.map_some]

theorem ofValue?_of_writable {t : Target} (ht : t.Writable) {f? : Option Text} {before : Text}
    (hf : ∀ f ∈ f?, f ≠ [] ∧ ')' ∉ f ∧ f.Tidy) (hbefore : ¬ tokenStart <:+: before)
    (after owner : Text) (place : Place) :
    ofValue? (before ++ t.renderWith f? ++ after) owner place =
      some ⟨t, f?, t.renderWith f?, place⟩ := by
  have hform : (t.token f?).InForm := ht.inForm_token fun f h => (hf f h).2.1
  rw [← Target.text_token, ofValue?_of_inForm hform hbefore,
    ht.reference_token fun f h => ⟨(hf f h).1, (hf f h).2.2⟩]

/-- A target that is written as a token, with or without a fallback, is read back from any value in
which `ref(` does not stand before it, in a rule with any selector list.  So no two such targets are
written alike. -/
theorem ofValue?_renderWith {t : Target} (ht : t.Writable) :
    (∀ (f? : Option Text) (before after owner : Text) (place : Place),
      (∀ f ∈ f?, f ≠ [] ∧ ')' ∉ f ∧ f.Tidy) → ¬ tokenStart <:+: before →
        ofValue? (before ++ t.renderWith f? ++ after) owner place =
          some ⟨t, f?, t.renderWith f?, place⟩) ∧
    ∀ t' : Target, t'.Writable → t'.render = t.render → t' = t := by
  refine ⟨fun f? before after owner place hf hbefore =>
    ofValue?_of_writable ht hf hbefore after owner place, fun t' ht' heq => ?_⟩
  have hread {u : Target} (hu : u.Writable) :
      (ofValue? u.render [] ⟨0, 0⟩).map (·.target) = some u := by
    have hnone : ∀ f ∈ (none : Option Text), f ≠ [] ∧ ')' ∉ f ∧ f.Tidy := nofun
    have hvalue := ofValue?_of_writable hu hnone (by decide : ¬ tokenStart <:+: []) [] [] ⟨0, 0⟩
    rw [List.append_nil, List.nil_append] at hvalue
    exact congrArg (Option.map (·.target)) hvalue
  have hsame : some t' = some t := by rw [← hread ht', ← hread ht, heq]
  exact Option.some.inj hsame

/-- A target with brackets and further places of `ref(` in its parts. -/
def interlaced : Target := ⟨"ref(.a:not(.b)".toList, "top(".toList⟩

/-- A fallback with a comma and a place of `ref(`. -/
def interlacedFallback : Text := "rgb(0, ref(".toList

theorem ofValue?_renderWith_interlaced :
    interlaced.Writable ∧
      (∀ f ∈ some interlacedFallback, f ≠ [] ∧ ')' ∉ f ∧ f.Tidy) ∧
      ¬ tokenStart <:+: "1px reref".toList ∧
      ofValue? "1px rerefref(ref(.a:not(.b), top(, rgb(0, ref()), ref(.c, d)".toList "&, .e".toList
          ⟨2, 3⟩ =
        some ⟨interlaced, some interlacedFallback,
          "ref(ref(.a:not(.b), top(, rgb(0, ref()".toList, ⟨2, 3⟩⟩ ∧
      ∀ t', t'.Writable → t'.render = interlaced.render → t' = interlaced := by
  obtain ⟨hwritable, hfallback, hbefore⟩ : interlaced.Writable ∧
      (interlacedFallback ≠ [] ∧ ')' ∉ interlacedFallback ∧ interlacedFallback.Tidy) ∧
      ¬ tokenStart <:+: "1px reref".toList := by
    decide +kernel
  obtain ⟨htoken, hwhole⟩ : interlaced.renderWith (some interlacedFallback) =
        "ref(ref(.a:not(.b), top(, rgb(0, ref()".toList ∧
      "1px reref".toList ++ "ref(ref(.a:not(.b), top(, rgb(0, ref()".toList ++
          "), ref(.c, d)".toList =
        "1px rerefref(ref(.a:not(.b), top(, rgb(0, ref()), ref(.c, d)".toList := by
    decide +kernel
  have hf : ∀ f ∈ some interlacedFallback, f ≠ [] ∧ ')' ∉ f ∧ f.Tidy := by
    intro f hf
    obtain rfl := Option.some.inj hf
    exact hfallback
  obtain ⟨hread, hunique⟩ := ofValue?_renderWith hwritable
  have hvalue := hread (some interlacedFallback) "1px reref".toList "), ref(.c, d)".toList
    "&, .e".toList ⟨2, 3⟩ hf hbefore
  rw [htoken, hwhole] at hvalue
  exact ⟨hwritable, hf, hbefore, hvalue, hunique⟩

/-- The text of a token is found again where the token was read: the first place of the text is the
place of the token, so what is put for it stands there, and what stood on both sides stays.  In front
`ref(` does not stand at all. -/
theorem replaceFirst_token {value owner : Text} {place : Place} {r : Reference}
    (h : ofValue? value owner place = some r) :
    ∃ before captures after, tokenPattern.search? value = some (before, captures, after) ∧
      value = before ++ r.token ++ after ∧
      (∀ a b, value = a ++ r.token ++ b → before.length ≤ a.length) ∧
      (∀ replacement, Text.replaceFirst r.token replacement value =
        before ++ replacement ++ after) ∧
      ¬ tokenStart <:+: before ∧
      ∀ (s : Stylesheet) (replacement : Text), s.value? place = some value →
        (s.substitute replacement r).value? place = some (before ++ replacement ++ after) := by
  obtain ⟨before, t, after, hfind, rfl⟩ := ofValue?_eq_some_iff.mp h
  have hsearch : tokenPattern.search? value = some (before, t.captures, after) := by
    rw [RefToken.search?_tokenPattern, hfind]
    rfl
  have hreplace (replacement : Text) : Text.replaceFirst (t.reference owner place).token replacement
      value = before ++ replacement ++ after := RefToken.replaceFirst_text hfind replacement
  refine ⟨before, t.captures, after, hsearch, RefToken.eq_of_find? hfind,
    fun a b => Text.length_le_of_cut? (RefToken.cut?_text hfind), hreplace,
    RefToken.not_isInfix_before hfind, fun s replacement hvalue => ?_⟩
  obtain ⟨d, hd, rfl⟩ := Option.map_eq_some_iff.mp hvalue
  have hplace : (t.reference owner place).place = place := rfl
  rw [Stylesheet.value?, Stylesheet.declaration?_substitute, if_pos hplace, hd, Option.map_some,
    Option.map_some, hreplace]

/-- A value in which the text of the token stands twice, and a part of `ref(` in front of it. -/
def repeated : Text := "reref(ref(.a, b) ref(ref(.a, b)".toList

theorem replaceFirst_token_repeated :
    ∃ r, ofValue? repeated [] ⟨0, 0⟩ = some r ∧ r.token = "ref(ref(.a, b)".toList ∧
      ∀ replacement, Text.replaceFirst r.token replacement repeated =
        "re".toList ++ replacement ++ " ref(ref(.a, b)".toList := by
  obtain ⟨hvalue, hsearch⟩ :
      ofValue? repeated [] ⟨0, 0⟩ =
        some ⟨⟨"ref(.a".toList, "b".toList⟩, none, "ref(ref(.a, b)".toList, ⟨0, 0⟩⟩ ∧
      tokenPattern.search? repeated =
        some ("re".toList, [some "ref(.a".toList, some " b".toList, none],
          " ref(ref(.a, b)".toList) := by
    decide +kernel
  obtain ⟨before, captures, after, hfound, -, -, hreplace, -, -⟩ := replaceFirst_token hvalue
  rw [hsearch] at hfound
  cases hfound
  exact ⟨_, hvalue, rfl, hreplace⟩

end Reference

end StyleRef

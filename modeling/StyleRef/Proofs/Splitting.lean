import StyleRef.Css.Importance
import StyleRef.Sheet.Printer

/-
# The annotation, split off and written back

What the loader splits off the text of a value comes back when the declaration is
written, in one spelling: a blank, the mark and the word behind the value.  Here it
is shown that splitting what is written gives the value and the flag again, though
a value may be empty, may have marks of its own and may even end in an annotation.

Behind the mark of an annotation stand blanks and letters alone (`isSoft`).  So an
annotation begins at the last mark of a text, and a text has one annotation at most.
What is split off is said without a search then (`Splits`), and so is what can be
left by it (`Parted`): exactly these values with their flags are read back.
-/

namespace StyleRef

namespace Css

/-! ## Annotated texts -/

/-- An annotation ends the text. -/
def Annotated (v : Text) : Prop :=
  ∃ a b, v = a ++ '!' :: b ∧ Text.sameIgnoringCase (Text.trim b) "important".toList = true

/-- The characters that may stand behind the mark of an annotation. -/
def isSoft (c : Char) : Bool := isBlank c || c.isAlpha

theorem isAlpha_of_toLower {c : Char} (h : c.toLower.isAlpha = true) : c.isAlpha = true := by
  unfold Char.toLower at h
  split at h
  · next hupper =>
    have hupper : c.isUpper = true := by
      unfold Char.isUpper
      simpa using hupper
    unfold Char.isAlpha
    simp [hupper]
  · exact h

theorem isAlpha_of_important {w : Text}
    (h : Text.sameIgnoringCase w "important".toList = true) : ∀ c ∈ w, c.isAlpha = true := by
  have hword : w.map Char.toLower = "important".toList := by
    simpa [Text.sameIgnoringCase] using h
  intro c hc
  have hlower : c.toLower ∈ "important".toList := hword ▸ List.mem_map_of_mem hc
  have halpha : ∀ d ∈ "important".toList, d.isAlpha = true := by decide
  exact isAlpha_of_toLower (halpha _ hlower)

theorem isSoft_of_annotated {b : Text}
    (h : Text.sameIgnoringCase (Text.trim b) "important".toList = true) :
    ∀ c ∈ b, isSoft c = true := by
  obtain ⟨l, r, hb, hl, hr⟩ := Text.trim_between b
  intro c hc
  rw [hb] at hc
  rcases List.mem_append.mp hc with hc | hc
  · rcases List.mem_append.mp hc with hc | hc
    · simp [isSoft, hl c hc]
    · simp [isSoft, isAlpha_of_important h c hc]
  · simp [isSoft, hr c hc]

theorem not_mem_of_important {b : Text}
    (h : Text.sameIgnoringCase (Text.trim b) "important".toList = true) {c : Char}
    (hc : isSoft c = false) : c ∉ b := by
  intro hmem
  rw [isSoft_of_annotated h c hmem] at hc
  cases hc

theorem splitImportant_snd_iff {v : Text} : (splitImportant v).2 = true ↔ Annotated v := by
  constructor
  · intro h
    obtain ⟨l, r, hv, -, hr⟩ := Text.trim_between v
    simp only [splitImportant] at h
    split at h
    · cases h
    · next before after hbreak =>
      obtain ⟨hvalue, -⟩ := Text.breakAtLast?_eq_some_iff.mp hbreak
      split at h
      · next hsame =>
        refine ⟨l ++ before, after ++ r, by rw [hv, hvalue]; simp, ?_⟩
        rwa [← List.nil_append (after ++ r), ← List.append_assoc, Text.trim_append (by simp) hr]
      · cases h
  · rintro ⟨a, b, rfl, hb⟩
    rw [splitImportant_mark hb (not_mem_of_important hb (by decide))]

instance (v : Text) : Decidable (Annotated v) := decidable_of_iff _ splitImportant_snd_iff

theorem Annotated.mem {v : Text} (h : Annotated v) : '!' ∈ v := by
  obtain ⟨a, b, rfl, -⟩ := h
  exact List.mem_append_right a List.mem_cons_self

/-- What stands before an annotated text is annotated with it. -/
theorem Annotated.append {v : Text} (h : Annotated v) (front : Text) : Annotated (front ++ v) := by
  obtain ⟨a, b, rfl, hb⟩ := h
  exact ⟨front ++ a, b, (List.append_assoc _ _ _).symm, hb⟩

/-! ## What a text is split into -/

/-- What a text is split into: the value before the annotation at its end, or all of it when no
annotation ends it. -/
inductive Splits : Text → Text → Bool → Prop
  | annotated {before after : Text} :
      Text.sameIgnoringCase (Text.trim after) "important".toList = true →
      Splits (before ++ '!' :: after) (Text.trim before) true
  | whole {raw : Text} : ¬ Annotated raw → Splits raw (Text.trim raw) false

theorem splitImportant_eq_iff {raw v : Text} {important : Bool} :
    splitImportant raw = (v, important) ↔ Splits raw v important := by
  constructor
  · intro h
    cases important with
    | true =>
      obtain ⟨before, after, rfl, hword⟩ := splitImportant_snd_iff.mp (congrArg Prod.snd h)
      rw [splitImportant_mark hword (not_mem_of_important hword (by decide))] at h
      obtain rfl := congrArg Prod.fst h
      exact .annotated hword
    | false =>
      have hflag : (splitImportant raw).2 = false := congrArg Prod.snd h
      obtain rfl : Text.trim raw = v := (splitImportant_fst hflag).symm.trans (congrArg Prod.fst h)
      exact .whole fun hannotated => by simp [splitImportant_snd_iff.mpr hannotated] at hflag
  · intro h
    cases h with
    | annotated hword => exact splitImportant_mark hword (not_mem_of_important hword (by decide))
    | whole hplain =>
      exact splitImportant_eq_false_iff.mpr
        (Bool.eq_false_iff.mpr fun h => hplain (splitImportant_snd_iff.mp h))

/-! ## Reading back what is written -/

/-- A value and a flag that a split can leave: blanks are trimmed off the value, and where the flag
says that no annotation was found, none ends the value. -/
structure Parted (v : Text) (important : Bool) : Prop where
  tidy : v.Tidy
  plain : important = false → ¬ Annotated v

theorem annotated_trim_iff {v : Text} : Annotated (Text.trim v) ↔ Annotated v := by
  rw [← splitImportant_snd_iff, ← splitImportant_snd_iff, splitImportant, splitImportant,
    Text.trim_trim]

theorem Splits.parted {raw v : Text} {important : Bool} (h : Splits raw v important) :
    Parted v important := by
  cases h with
  | annotated _ => exact ⟨Text.tidy_trim _, nofun⟩
  | whole hplain => exact ⟨Text.tidy_trim _, fun _ h => hplain (annotated_trim_iff.mp h)⟩

/-- The values that are read back with their flags from what is written for them. -/
theorem splits_written_iff {v : Text} {important : Bool} :
    Splits (v ++ if important then " !important".toList else []) v important ↔
      Parted v important := by
  refine ⟨Splits.parted, fun h => splitImportant_eq_iff.mp ?_⟩
  cases important with
  | true => exact (splitImportant_annotated v).trans (by rw [Text.trim_eq_self h.tidy])
  | false =>
    rw [if_neg Bool.false_ne_true, List.append_nil, splitImportant_eq_iff]
    have hwhole := Splits.whole (h.plain rfl)
    rwa [Text.trim_eq_self h.tidy] at hwhole

/-- Main statement: the split is stable under writing.  The value that is left has no blank at
either end, and what is written behind `property: ` for it and its flag is split into the two
again. -/
theorem splitImportant_render {raw v : Text} {important : Bool}
    (h : splitImportant raw = (v, important)) (property : Text) :
    Splits raw v important ∧ v.Tidy ∧
      ∃ text, (Declaration.mk property v important).render = property ++ ": ".toList ++ text ∧
        splitImportant text = (v, important) := by
  have hsplits := splitImportant_eq_iff.mp h
  have hparted := hsplits.parted
  refine ⟨hsplits, hparted.tidy, _, ?_, splitImportant_eq_iff.mpr (splits_written_iff.mpr hparted)⟩
  simp only [Declaration.render, List.append_assoc]

def annotatedTwice : Text := "\u00A0'stop!' !important ! IMPORTANT\u3000".toList

theorem splitImportant_render_twice :
    splitImportant annotatedTwice = ("'stop!' !important".toList, true) ∧
      ∃ text, (Declaration.mk "content".toList "'stop!' !important".toList true).render =
          "content: ".toList ++ text ∧
        splitImportant text = ("'stop!' !important".toList, true) := by
  have h : splitImportant annotatedTwice = ("'stop!' !important".toList, true) := by decide +kernel
  exact ⟨h, (splitImportant_render h "content".toList).2.2⟩

/-- An annotation of nothing. -/
example : splitImportant "!important".toList = ([], true) := by decide

end Css

end StyleRef

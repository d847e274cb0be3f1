import StyleRef.Text.Search

/-
# The annotation of important declarations

Whether a declaration is important is read from the text of its value: an
exclamation mark and the word `important`, in any letter case, at the very end.
Blanks may stand around the word.  Anything else between the mark and the end,
a comment for one, makes the annotation a part of the value.
-/

namespace StyleRef

namespace Css

/-- Splits the annotation off the text of a value and trims what is left. -/
def splitImportant (raw : Text) : Text × Bool :=
  let value := Text.trim raw
  match Text.breakAtLast? '!' value with
  | none => (value, false)
  | some (before, after) =>
    if Text.sameIgnoringCase (Text.trim after) "important".toList then
      (Text.trimEnd before, true)
    else (value, false)

/-! ## What is split off -/

theorem splitImportant_append {a b : Text} (ha : ∀ c ∈ a, isBlank c = true)
    (hb : ∀ c ∈ b, isBlank c = true) (s : Text) : splitImportant (a ++ s ++ b) = splitImportant s := by
  simp only [splitImportant, Text.trim_append ha hb]

theorem splitImportant_space_cons (s : Text) : splitImportant (' ' :: s) = splitImportant s := by
  have h := splitImportant_append (a := [' ']) (b := []) (by decide) (by simp) s
  rwa [List.append_nil] at h

theorem splitImportant_mark {a b : Text}
    (hb : Text.sameIgnoringCase (Text.trim b) "important".toList = true) (hlast : '!' ∉ b) :
    splitImportant (a ++ '!' :: b) = (Text.trim a, true) := by
  have hbreak : Text.breakAtLast? '!' (Text.trimStart a ++ '!' :: Text.trimEnd b) =
      some (Text.trimStart a, Text.trimEnd b) := by
    refine Text.breakAtLast?_eq_some_iff.mpr ⟨rfl, fun h => hlast ?_⟩
    obtain ⟨c, hc, -⟩ := Text.trimEnd_append b
    rw [hc]
    exact List.mem_append_left c h
  have hsame : Text.sameIgnoringCase (Text.trim (Text.trimEnd b)) "important".toList = true := by
    rwa [Text.trim_trimEnd]
  have hmark : isBlank '!' = false := by decide
  simp only [splitImportant, Text.trim_append_cons hmark, hbreak, hsame, ↓reduceIte]
  rfl

/-- The annotation is read as it is written, whatever stands before it. -/
theorem splitImportant_annotated (v : Text) :
    splitImportant (v ++ ' ' :: '!' :: "important".toList) = (Text.trim v, true) := by
  have h := splitImportant_mark (a := v ++ [' ']) (b := "important".toList) (by decide) (by decide)
  have htrim : Text.trim (v ++ [' ']) = Text.trim v :=
    Text.trim_append (a := []) nofun (by decide) v
  rwa [List.append_assoc, htrim] at h

theorem splitImportant_fst {raw : Text} (h : (splitImportant raw).2 = false) :
    (splitImportant raw).1 = Text.trim raw := by
  revert h
  simp only [splitImportant]
  split
  · exact fun _ => rfl
  · split
    · exact fun h => Bool.noConfusion h
    · exact fun _ => rfl

theorem splitImportant_eq_false_iff {raw : Text} :
    splitImportant raw = (Text.trim raw, false) ↔ (splitImportant raw).2 = false :=
  ⟨fun h => congrArg Prod.snd h, fun h => Prod.ext (splitImportant_fst h) h⟩

end Css

end StyleRef

import StyleRef.Proofs.Comments
import StyleRef.Proofs.Lexemes
import StyleRef.Proofs.Selection
import StyleRef.Proofs.SelectorSpace
import StyleRef.Transform

/-
# The items of a selector list

The grammar cuts a selector list at the commas outside all blocks.  A rule is
asked for its selectors by text, and the text is cut at every comma, be it in the
arguments of `:is`, in a string, in an address or behind a backslash.  What
connects the two is that the second cut refines the first: every comma between
two items is a comma of the text, so the selectors of a rule are those of its
items, one item after the other (`Rule.selectors_items`).

An item without a comma is therefore a selector of its rule, and one with a
comma never is: its pieces take its place, and each of them is matched as if it
were a selector of the list.
-/

namespace StyleRef

open Css

/-! ## Cutting a text at every comma -/

namespace Text

/-- The pieces of a text between its commas, each one trimmed. -/
def betweenCommas (s : Text) : List Text := (s.splitOn ',').map trim

theorem betweenCommas_of_not_mem {s : Text} (h : ',' ∉ s) : betweenCommas s = [trim s] := by
  rw [betweenCommas, List.splitOn_eq_singleton h, List.map_singleton]

theorem betweenCommas_append_cons (s u : Text) :
    betweenCommas (s ++ ',' :: u) = betweenCommas s ++ betweenCommas u := by
  rw [betweenCommas, List.splitOn_append_cons_self, List.map_append, betweenCommas, betweenCommas]

/-- A text has no comma, or it is split at its first. -/
theorem comma_induction {motive : Text → Prop} (none : ∀ s, ',' ∉ s → motive s)
    (first : ∀ s u, ',' ∉ s → motive u → motive (s ++ ',' :: u)) (s : Text) : motive s := by
  induction hlen : s.length using Nat.strongRecOn generalizing s with
  | ind len ih =>
    cases hbreak : breakAt? ',' s with
    | none => exact none s (breakAt?_eq_none_iff.mp hbreak)
    | some parts =>
      obtain ⟨before, after⟩ := parts
      obtain ⟨rfl, hfirst⟩ := breakAt?_eq_some_iff.mp hbreak
      refine first before after hfirst (ih after.length ?_ after rfl)
      rw [← hlen, List.length_append, List.length_cons]
      omega

theorem comma_not_mem_of_mem_betweenCommas {s piece : Text} (h : piece ∈ betweenCommas s) :
    ',' ∉ piece := by
  have htrim {u : Text} (hu : ',' ∉ u) : ',' ∉ trim u := by
    obtain ⟨a, b, hab, -⟩ := trim_between u
    intro hmem
    rw [hab] at hu
    exact hu (List.mem_append_left b (List.mem_append_right a hmem))
  induction s using comma_induction with
  | none s hs =>
    rw [betweenCommas_of_not_mem hs, List.mem_singleton] at h
    exact h ▸ htrim hs
  | first s u hs ih =>
    rw [betweenCommas_append_cons, betweenCommas_of_not_mem hs, List.singleton_append] at h
    rcases List.mem_cons.mp h with rfl | h
    · exact htrim hs
    · exact ih h

/-- Blanks at either end make no difference. -/
theorem betweenCommas_append {a b : Text} (ha : ∀ c ∈ a, isBlank c = true)
    (hb : ∀ c ∈ b, isBlank c = true) (s : Text) :
    betweenCommas (a ++ s ++ b) = betweenCommas s := by
  have hno {w u : Text} (hw : ∀ c ∈ w, isBlank c = true) (hu : ',' ∉ u) : ',' ∉ w ++ u := by
    have hcomma : isBlank ',' = false := by decide
    rw [List.mem_append, not_or]
    exact ⟨fun h => by simp [hw ',' h] at hcomma, hu⟩
  induction s using comma_induction generalizing a with
  | none s hs =>
    have hall : ',' ∉ a ++ s ++ b := by
      rw [List.mem_append, not_or]
      exact ⟨hno ha hs, fun h => hno (u := []) hb List.not_mem_nil (by simpa using h)⟩
    rw [betweenCommas_of_not_mem hall, betweenCommas_of_not_mem hs, trim_append ha hb]
  | first s u hs ih =>
    have hfront : trim (a ++ s) = trim s := by
      have h := trim_append (b := []) ha nofun s
      rwa [List.append_nil] at h
    have hcut : a ++ (s ++ ',' :: u) ++ b = (a ++ s) ++ ',' :: ([] ++ u ++ b) := by simp
    rw [hcut, betweenCommas_append_cons, betweenCommas_append_cons, ih (a := []) nofun,
      betweenCommas_of_not_mem (hno ha hs), betweenCommas_of_not_mem hs, hfront]

theorem betweenCommas_trim (s : Text) : betweenCommas (trim s) = betweenCommas s := by
  obtain ⟨a, b, hs, ha, hb⟩ := trim_between s
  conv_rhs => rw [hs]
  exact (betweenCommas_append ha hb (trim s)).symm

theorem betweenCommas_intercalate {parts : List Text} (h : parts ≠ []) :
    betweenCommas ([','].intercalate parts) = parts.flatMap betweenCommas := by
  induction parts with
  | nil => exact absurd rfl h
  | cons part parts ih =>
    cases parts with
    | nil => simp [List.intercalate_singleton]
    | cons next parts =>
      rw [List.intercalate_cons_cons, List.append_assoc, List.singleton_append,
        betweenCommas_append_cons, ih (List.cons_ne_nil _ _)]
      rfl

end Text

/-! ## Cutting tokens at the commas outside all blocks -/

namespace Css

theorem splitNested_withoutComments {sep : Token → Bool}
    (hsep : ∀ t : Token, t.kind = .comment → sep t = false) (stack : List Bracket)
    (ts : List Token) :
    splitNested sep stack (withoutComments ts) = (splitNested sep stack ts).map withoutComments := by
  induction ts generalizing stack with
  | nil => rfl
  | cons t ts ih =>
    by_cases ht : t.kind = .comment
    · obtain ⟨part, parts, hparts⟩ := List.exists_cons_of_ne_nil (splitNested_ne_nil sep stack ts)
      rw [withoutComments_cons_of_comment ht, ih]
      simp [splitNested, hsep t ht, nest_of_isGap (Token.isGap_of_comment ht), hparts,
        withoutComments_cons_of_comment ht]
    · obtain ⟨part, parts, hparts⟩ :=
        List.exists_cons_of_ne_nil (splitNested_ne_nil sep (nest stack t) ts)
      rw [withoutComments_cons ht, splitNested, splitNested]
      split
      · rw [ih, List.map_cons]
        rfl
      · rw [ih, hparts]
        simp [withoutComments_cons ht]

/-- Between the parts of a list stood the commas. -/
theorem textOf_splitNested {ts : List Token} (h : ∀ t ∈ ts, t.isComma = true → t.text = [','])
    (stack : List Bracket) :
    [','].intercalate ((splitNested Token.isComma stack ts).map textOf) = textOf ts := by
  induction ts generalizing stack with
  | nil => rfl
  | cons t ts ih =>
    obtain ⟨ht, hts⟩ := List.forall_mem_cons.mp h
    rw [splitNested, textOf_cons]
    split
    · next hstop =>
      obtain ⟨part, parts, hparts⟩ :=
        List.exists_cons_of_ne_nil (splitNested_ne_nil Token.isComma [] ts)
      rw [← ih hts [], hparts, ht (Bool.and_eq_true_iff.mp hstop).2, List.map_cons, List.map_cons,
        List.intercalate_cons_cons]
      rfl
    · rw [← ih hts (nest stack t)]
      obtain ⟨part, parts, hparts⟩ :=
        List.exists_cons_of_ne_nil (splitNested_ne_nil Token.isComma (nest stack t) ts)
      cases parts with
      | nil => simp [hparts, List.intercalate_singleton]
      | cons next parts => simp [hparts, List.intercalate_cons_cons]

/-- A list is in form if each of its parts is a selector. -/
theorem isSelectorList_withoutComments (ts : List Token) :
    isSelectorList false (withoutComments ts) =
      (splitCommas ts).all fun part => isSelector (withoutComments part) := by
  have hcomma (t : Token) (ht : t.kind = .comment) : t.isComma = false := by
    simp [Token.isComma, ht]
  rw [isSelectorList_eq, splitCommas, splitNested_withoutComments hcomma, List.all_map]
  rfl

end Css

/-! ## Items and selectors -/

namespace Rule

/-- The items of the selector list of a rule: its pieces between the commas outside all blocks, each
one trimmed. -/
def items (r : Rule) : List Text := (splitCommas (lex r.selector)).map slice

theorem trim_of_mem_items {r : Rule} {item : Text} (h : item ∈ r.items) : Text.trim item = item := by
  obtain ⟨part, -, rfl⟩ := List.mem_map.mp h
  exact Text.trim_trim _

theorem betweenCommas_of_mem_items {r : Rule} {item : Text} (h : item ∈ r.items)
    (hcomma : ',' ∉ item) : item.betweenCommas = [item] := by
  rw [Text.betweenCommas_of_not_mem hcomma, trim_of_mem_items h]

/-- The selectors of a rule are those of its items. -/
theorem selectors_eq_flatMap (r : Rule) : r.selectors = r.items.flatMap Text.betweenCommas := by
  have hcommas : ∀ t ∈ lex r.selector, t.isComma = true → t.text = [','] :=
    fun t ht => text_eq_of_isComma ht
  have hparts : (splitCommas (lex r.selector)).map textOf ≠ [] := by
    rw [Ne, List.map_eq_nil_iff]
    exact splitNested_ne_nil _ _ _
  have hslice (part : List Token) : Text.betweenCommas (textOf part) = (slice part).betweenCommas :=
    (Text.betweenCommas_trim (textOf part)).symm
  calc r.selectors
      = Text.betweenCommas (textOf (lex r.selector)) := by rw [textOf_lex]; rfl
    _ = ((splitCommas (lex r.selector)).map textOf).flatMap Text.betweenCommas := by
        rw [← Text.betweenCommas_intercalate hparts, splitCommas, textOf_splitNested hcommas]
    _ = r.items.flatMap Text.betweenCommas := by
        rw [items, List.flatMap_map, List.flatMap_map]
        simp only [hslice]

/-- No selector of a rule has a comma. -/
theorem comma_not_mem_of_mem_selectors {r : Rule} {t : Text} (h : t ∈ r.selectors) : ',' ∉ t :=
  Text.comma_not_mem_of_mem_betweenCommas (s := r.selector) h

theorem mem_selectors_iff {r : Rule} {t : Text} :
    t ∈ r.selectors ↔ ∃ item ∈ r.items, t ∈ item.betweenCommas := by
  rw [selectors_eq_flatMap, List.mem_flatMap]

/-- An item is among the selectors if no comma is in it. -/
theorem mem_selectors_of_mem_items {r : Rule} {item : Text} (h : item ∈ r.items) :
    item ∈ r.selectors ↔ ',' ∉ item := by
  constructor
  · exact comma_not_mem_of_mem_selectors
  · intro hcomma
    refine mem_selectors_iff.mpr ⟨item, h, ?_⟩
    rw [betweenCommas_of_mem_items h hcomma]
    exact List.mem_singleton_self item

theorem selectors_eq_items_iff {r : Rule} :
    r.selectors = r.items ↔ ∀ item ∈ r.items, ',' ∉ item := by
  constructor
  · intro heq item h
    exact (mem_selectors_of_mem_items h).mp (heq ▸ h)
  · intro hcomma
    have hsingle : ∀ item ∈ r.items, item.betweenCommas = [item] := fun item h =>
      betweenCommas_of_mem_items h (hcomma item h)
    rw [selectors_eq_flatMap, List.flatMap_congr hsingle]
    simp

/-- What the selectors of a rule are by the items of its list.  The list is in form if every item is a
selector; the selectors are the pieces of the items between all their commas, so they are the items
just where no item has a comma, and it is by these pieces that the rule is found. -/
theorem selectors_items (r : Rule) (x : RefIndex) :
    isSelectorList false (withoutComments (lex r.selector)) =
        ((splitCommas (lex r.selector)).all fun part => isSelector (withoutComments part)) ∧
      r.selectors = r.items.flatMap Text.betweenCommas ∧
      (r.selectors = r.items ↔ ∀ item ∈ r.items, ',' ∉ item) ∧
      (∀ item ∈ r.items, item ∈ r.selectors ↔ ',' ∉ item) ∧
      (∀ t, t ∈ r.matched x ↔
        x.contains t = true ∧ ∃ item ∈ r.items, t ∈ item.betweenCommas) ∧
      ∀ i t, (r.serves? i t).isSome = true ↔
        (∃ item ∈ r.items, t.selector ∈ item.betweenCommas) ∧
          ∃ d ∈ r.declarations, d.property = t.property := by
  refine ⟨isSelectorList_withoutComments _, selectors_eq_flatMap r, selectors_eq_items_iff,
    fun item => mem_selectors_of_mem_items, fun t => ?_, fun i t => ?_⟩
  · rw [matched, List.mem_eraseDups, List.mem_filter, mem_selectors_iff, and_comm]
  · rw [isSome_serves?_iff, Serves, mem_selectors_iff]

/-- A list with brackets and a string in which no comma is. -/
example : selectors ⟨".a:not([title=\"x\"]), i > b ,/**/.c".toList, [], none⟩ =
    [".a:not([title=\"x\"])".toList, "i > b".toList, "/**/.c".toList] := by decide

/-- A rule for one selector that has commas in brackets, and a reference to one of the arguments. -/
def bracketedCommas : Text :=
  ".x:is(.p, .a, .q) { color: red } .y { color: ref(.a, color, blue) }".toList

/-- The only selector of the first rule is none of those that it is found by, and an argument in it
gives the rule's value away. -/
theorem not_selectors_items_bracketedCommas :
    ∃ r ∈ (Stylesheet.read bracketedCommas).rules, Validator.grammar.Accepts bracketedCommas ∧
      isSelectorList false (withoutComments (lex r.selector)) = true ∧
      r.items = [".x:is(.p, .a, .q)".toList] ∧
      r.selectors = [".x:is(.p".toList, ".a".toList, ".q)".toList] ∧
      transform .selector bracketedCommas =
        .ok ".x:is(.p, .a, .q) \x7b color: red \x7d\n.y \x7b color: red \x7d\n".toList := by
  decide +kernel

end Rule

end StyleRef

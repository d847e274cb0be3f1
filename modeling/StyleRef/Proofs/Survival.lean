import Mathlib.Data.List.TakeWhile
import StyleRef.Proofs.Grammar
import StyleRef.Proofs.Recorded
import StyleRef.Proofs.Reloading

/-
# Loading again what was loaded

The parts of an accepted text are in form where they stand.  Where they are written
they stand between other tokens and with other white space around them.  If each
of them ends there with its last token and its last block, and keeps the tokens
that the validator saw in it (`PlacedRule.Kept`), it is in form there too, and the
written sheet loads to the sheet that was written (`Stylesheet.parse_render`).
-/

namespace StyleRef

namespace Css

/-! ## What is seen of a piece -/

/-- The piece without comments and without the white space around it. -/
def seen (ts : List Token) : List Token := withoutOuterSpace (withoutComments ts)

theorem settles_withoutComments (stack : List Bracket) (ts : List Token) :
    settles stack (withoutComments ts) = settles stack ts := by
  induction ts generalizing stack with
  | nil => rfl
  | cons t ts ih =>
    by_cases ht : t.kind = .comment
    · rw [withoutComments_cons_of_comment ht, ih]
      simp [settles, Token.opens?, Token.closes?, ht, nest_of_isGap (Token.isGap_of_comment ht)]
    · simp only [withoutComments_cons ht, settles, ih]

theorem settles_seen (ts : List Token) : settles [] (seen ts) = settles [] ts := by
  rw [seen, settles_withoutOuterSpace, settles_withoutComments]

theorem settles_of_seen {ts us : List Token} (hus : settles [] us = true)
    (hseen : seen us = seen ts) : settles [] ts = true := by
  rwa [← settles_seen, ← hseen, settles_seen]

/-- What is seen of a piece begins as the piece does. -/
theorem exists_seen_cons {t : Token} (hspace : t.kind ≠ .space) (hcomment : t.kind ≠ .comment)
    (ts : List Token) : ∃ us, seen (t :: ts) = t :: us := by
  obtain ⟨a, b, ha, hb, heq⟩ := exists_outerSpace (withoutComments (t :: ts))
  rw [← seen, withoutComments_cons hcomment] at heq
  cases a with
  | cons u a =>
    obtain ⟨rfl, -⟩ := List.cons.inj heq
    exact absurd (ha t (by simp)) hspace
  | nil =>
    rw [List.nil_append] at heq
    cases hseen : seen (t :: ts) with
    | nil =>
      rw [hseen, List.nil_append] at heq
      exact absurd (hb t (by simp [← heq])) hspace
    | cons u us =>
      rw [hseen] at heq
      obtain ⟨rfl, -⟩ := List.cons.inj heq
      exact ⟨us, rfl⟩

/-! Whether a prelude begins as a custom property does can be seen. -/

def withoutGaps (ts : List Token) : List Token := ts.filter fun t => !t.isGap

theorem withoutGaps_seen (ts : List Token) : withoutGaps (seen ts) = withoutGaps ts := by
  have hspaces {us : List Token} (hus : ∀ t ∈ us, t.kind = .space) :
      us.filter (fun t => !t.isGap) = [] :=
    List.filter_eq_nil_iff.mpr fun t ht => by simp [Token.isGap_of_space (hus t ht)]
  have hcomments : (withoutComments ts).filter (fun t => !t.isGap) = withoutGaps ts := by
    rw [withoutGaps, withoutComments, List.filter_filter]
    refine List.filter_congr fun t _ => ?_
    by_cases ht : t.kind = .comment <;> simp [Token.isGap, ht]
  obtain ⟨a, b, ha, hb, heq⟩ := exists_outerSpace (withoutComments ts)
  have hgaps := congrArg (List.filter fun t : Token => !t.isGap) heq
  rw [hcomments, List.filter_append, List.filter_append, hspaces ha, hspaces hb, List.nil_append,
    List.append_nil] at hgaps
  exact hgaps.symm

theorem head?_skipGaps (ts : List Token) : (skipGaps ts).head? = (withoutGaps ts).head? := by
  rw [withoutGaps, List.head?_filter, List.find?_not_eq_head?_dropWhile, skipGaps]

theorem startsCustomProperty_withoutGaps (ts : List Token) :
    startsCustomProperty (withoutGaps ts) = startsCustomProperty ts := by
  have hgaps (ts : List Token) : withoutGaps (withoutGaps ts) = withoutGaps ts := by
    simp [withoutGaps, List.filter_filter]
  induction ts with
  | nil => rfl
  | cons t ts ih =>
    by_cases ht : t.isGap = true
    · rw [withoutGaps, List.filter_cons_of_neg (by simp [ht]), ← withoutGaps, ih,
        startsCustomProperty, startsCustomProperty, skipGaps, skipGaps, List.dropWhile_cons_of_pos ht]
    · rw [withoutGaps, List.filter_cons_of_pos (by simp [ht]), ← withoutGaps, startsCustomProperty,
        startsCustomProperty, skipGaps, List.dropWhile_cons_of_neg ht, skipGaps,
        List.dropWhile_cons_of_neg ht]
      obtain ⟨kind, text⟩ := t
      cases kind with
      | ident name => simp only [head?_skipGaps, hgaps]
      | _ => rfl

/-! ## Parts that look the same -/

section Seen
variable {p : Parts} (hspace : p.IgnoresSpace) {ts us : List Token} (hus : settles [] us = true)
include hspace hus

theorem isSelectorList_of_seen (hseen : seen us = seen ts) (hbar : NoBar (seen ts))
    (h : p.isSelectorList (withoutComments ts) = true) :
    p.isSelectorList (withoutComments us) = true := by
  have hcomments {us : List Token} (hus : settles [] us = true) (hbar : NoBar (seen us)) :
      p.isSelectorList (withoutComments us) = p.isSelectorList (seen us) :=
    hspace.selectors _ ((settles_withoutComments [] us).trans hus) hbar
  rwa [hcomments hus (by rwa [hseen]), hseen, ← hcomments (settles_of_seen hus hseen) hbar]

theorem isMediaList_of_seen (hseen : seen us = seen ts)
    (h : p.isMediaList (withoutComments ts) = true) : p.isMediaList (withoutComments us) = true := by
  have hcomments {us : List Token} (hus : settles [] us = true) :
      p.isMediaList (withoutComments us) = p.isMediaList (seen us) :=
    hspace.queries _ ((settles_withoutComments [] us).trans hus)
  rwa [hcomments hus, hseen, ← hcomments (settles_of_seen hus hseen)]

theorem isValueOf_of_parts {property : Text}
    (hparts : valueParts property (withoutComments us) = valueParts property (withoutComments ts))
    (h : p.isValueOf property (withoutComments ts) = true) :
    p.isValueOf property (withoutComments us) = true := by
  have hus := (settles_withoutComments [] us).trans hus
  rwa [hspace.values property _ _ hus (settles_of_valueParts hus hparts) hparts]

end Seen

/-! ## Parts that are kept -/

/-- Where the declaration is written it has the value that it had. -/
def Entry.keepsValue : Entry → Bool
  | .declaration property value =>
    (Css.declaration? property value).all fun d =>
      [[], [' ']].all fun tail =>
        valueParts property (withoutComments (lex (d.valueText ++ tail))) =
          valueParts property (withoutComments ((skipGaps value).drop 1))
  | _ => true

/-- Where the parts of a rule are written, what is seen of them is what was seen in the text. -/
@[mk_iff]
structure PlacedRule.Kept (p : Parts) (r : PlacedRule) : Prop where
  /-- The selector list is cut into the same tokens. -/
  selector : seen (lex (slice r.prelude ++ [' '])) = seen r.trimmed.prelude
  noBar : NoBar (seen r.trimmed.prelude)
  query : ∀ q ∈ r.media.getLast?, seen (lex (' ' :: slice q ++ [' '])) = seen q
  /-- What is read as a declaration is one, and its value has the same parts. -/
  declarations : ∀ e ∈ entries (some p.isValueOf) r.block, e.1 = false →
    e.2.beginsDeclaration = false ∧ e.2.keepsValue = true

instance (p : Parts) (r : PlacedRule) : Decidable (r.Kept p) :=
  decidable_of_iff _ (PlacedRule.kept_iff p r).symm

/-! ## Loaded parts -/

theorem splitImportant_of_declaration? {property : Text} {ts : List Token} {d : Declaration}
    (h : declaration? property ts = some d) :
    splitImportant d.valueText = (d.value, d.important) := by
  rw [declaration?] at h
  split at h
  · cases h
    exact Declaration.splitImportant_valueText (splitImportant_eq_iff.mp rfl).parted
  · cases h

theorem exists_declaration?_of_mem {ts : List Token} {d : Declaration} (hd : d ∈ declarations ts) :
    ∃ property value, declaration? property value = some d := by
  rw [declarations, declarationsFrom_eq] at hd
  obtain ⟨_, us, found, _, _, hstep, hmem, -⟩ := exists_step_of_mem declarationStep_lt hd
  simp only [declarationStep] at hstep
  split at hstep
  · cases hstep
  · split at hstep
    · cases hstep
      cases hmem
    · cases hstep
      exact ⟨_, _, Option.mem_toList.mp hmem⟩
    · cases hstep
      cases hmem

/-- The parts of a loaded rule are trimmed, and its values are split from their annotations, so it is
enough that they are delimited. -/
theorem readable_of_mem_rulesFrom {depth : Nat} {media : Option Text} {ts : List Token}
    (hmedia : ∀ q ∈ media, Text.Tidy q) :
    ∀ r ∈ rulesFrom depth media ts, r.Delimited → r.Readable := by
  induction depth generalizing media ts with
  | zero => nofun
  | succ depth ih =>
    intro r hr hdelimited
    rw [rulesFrom_succ] at hr
    obtain ⟨s, -, hr⟩ := List.mem_flatMap.mp hr
    match s with
    | .qualified prelude (some block) =>
      rw [Statement.rules] at hr
      split at hr
      · cases hr
      · obtain rfl := List.mem_singleton.mp hr
        refine ⟨hdelimited, Text.tidy_trim _, hmedia, fun d hd => ?_⟩
        obtain ⟨property, value, hvalue⟩ := exists_declaration?_of_mem hd
        exact splitImportant_of_declaration? hvalue
    | .atRule name prelude (some block) =>
      rw [Statement.rules] at hr
      split at hr
      · refine ih (fun q hq => ?_) r hr hdelimited
        obtain rfl := Option.some.inj hq
        exact Text.tidy_trim _
      · cases hr
    | .qualified _ none => cases hr
    | .atRule _ _ none => cases hr

/-! ## Values -/

theorem isValueOf_of_isDeclarationOf {check : ValueCheck} {property : Text} {value : List Token}
    (h : isDeclarationOf check property value = true) :
    check property (withoutComments ((skipGaps value).drop 1)) = true := by
  rw [isDeclarationOf] at h
  split at h
  · next heq => rwa [heq]
  · cases h

theorem property_of_declaration? {property : Text} {ts : List Token} {d : Declaration}
    (h : declaration? property ts = some d) : d.property = property := by
  rw [declaration?] at h
  split at h
  · cases h
    rfl
  · cases h

section InForm
variable {p : Parts} (hspace : p.IgnoresSpace)
include hspace

/-- The declarations of a rule are in form where they are written. -/
theorem inForm_of_mem_declarations {ts : List Token}
    (hwhole : ∀ e ∈ entries (some p.isValueOf) ts, e.2.isWhole = true)
    (hreadable : ∀ d ∈ declarations ts, d.Readable)
    (hkept : ∀ e ∈ entries (some p.isValueOf) ts, e.1 = false →
      e.2.beginsDeclaration = false ∧ e.2.keepsValue = true) :
    ∀ d ∈ declarations ts, d.InForm p := by
  have hopen := declarations_eq_open hwhole fun e he h => (hkept e he h).1
  intro d hd tail htail
  have hsettles := ((hreadable d hd).value_whole tail htail).settles
  rw [hopen, openDeclarations] at hd
  obtain ⟨⟨behind, e⟩, he, hd⟩ := List.mem_filterMap.mp hd
  obtain ⟨he, hbehind⟩ := List.mem_filter.mp he
  cases e with
  | declaration property value =>
    have hd : Css.declaration? property value = some d := hd
    have hkeeps := (hkept _ he (by simpa using hbehind)).2
    rw [Entry.keepsValue, hd, Option.all_some, List.all_eq_true] at hkeeps
    obtain rfl := property_of_declaration? hd
    exact isValueOf_of_parts hspace hsettles (of_decide_eq_true (hkeeps tail htail))
      (isValueOf_of_isDeclarationOf (isDeclarationOf_of_mem he))
  | atRule _ _ _ => cases hd
  | rule _ _ => cases hd

end InForm

/-! ## Rules -/

section Kept
variable {p : Parts} {r : PlacedRule} {media : Option Text}

/-- What a rule that is kept begins with is no at-word and no custom property. -/
theorem PlacedRule.Kept.not_isStray (h : r.Kept p) (hreadable : (r.rule media).Readable) :
    r.isStray = false := by
  obtain ⟨t, ts, hbegins, hfiller, hat⟩ := hreadable.begins
  have hgap : t.isGap = false := by
    simp only [Token.isFiller, Bool.or_eq_false_iff] at hfiller
    exact hfiller.1.1
  obtain ⟨hspace, hcomment⟩ := Token.isGap_eq_false_iff.mp hgap
  obtain ⟨us, hus⟩ := exists_seen_cons hspace hcomment ts
  have hselector : seen r.trimmed.prelude = t :: us := by
    rw [← h.selector, ← hus, ← hbegins]
    rfl
  have hstrays : strays r.prelude = false := by
    rw [strays]
    split
    · next name text rest heq =>
      obtain ⟨vs, hvs⟩ := exists_seen_cons (t := ⟨.atKeyword name, text⟩) (by simp) (by simp) rest
      rw [PlacedRule.trimmed, heq, hvs] at hselector
      obtain ⟨rfl, -⟩ := List.cons.inj hselector
      exact absurd rfl (hat name)
    · rfl
  have hcustom : r.trimmed.isCustom = false := by
    rw [PlacedRule.isCustom, ← startsCustomProperty_withoutGaps, ← withoutGaps_seen, ← h.selector,
      withoutGaps_seen, startsCustomProperty_withoutGaps]
    exact hreadable.noCustomProperty
  rw [PlacedRule.isStray, hstrays, hcustom]
  rfl

/-- The parts of a rule that are in form and kept are in form where they are written. -/
theorem PlacedRule.Kept.inForm (hspace : p.IgnoresSpace) (h : r.Kept p)
    (hreadable : (r.rule r.queries.getLast?).Readable)
    (hselector : p.isSelectorList (withoutComments r.trimmed.prelude) = true)
    (hwhole : ∀ e ∈ entries (some p.isValueOf) r.block, e.2.isWhole = true)
    (hmedia : ∀ q ∈ r.media, p.isMediaList (withoutComments q) = true) :
    (r.rule r.queries.getLast?).InForm p where
  selector :=
    isSelectorList_of_seen hspace hreadable.selector_whole.settles h.selector h.noBar hselector
  query := by
    intro q hq
    have hsettles := (hreadable.query_whole q hq).settles
    rw [PlacedRule.rule, PlacedRule.queries, List.getLast?_map] at hq
    obtain ⟨ts, hts, rfl⟩ := Option.map_eq_some_iff.mp hq
    exact isMediaList_of_seen hspace hsettles (h.query ts hts)
      (hmedia ts (List.mem_of_getLast? hts))
  declarations := inForm_of_mem_declarations hspace hwhole hreadable.declarations h.declarations

end Kept

end Css

open Css

namespace Stylesheet

variable {v : Validator} {css : Text} {s : Stylesheet}

/-- A loaded sheet whose parts end where they are written loads to the same sheet, if it is accepted
as it is written.  A validator that is known by its tests of the parts, which ignore white space,
accepts it if the parts are kept. -/
theorem parse_render (h : v.parse css = .ok s) (hdelimited : ∀ r ∈ s.rules, r.Delimited) :
    (v.Accepts s.render → v.parse s.render = .ok s) ∧
      ∀ p : Parts, v.Sound p → v.Complete p → p.IgnoresSpace → (∀ r ∈ placed css, r.Kept p) →
        v.parse s.render = .ok s := by
  obtain ⟨haccepts, rfl⟩ := Validator.parse_eq_ok_iff.mp h
  have hreadable (r : Rule) (hr : r ∈ (read css).rules) : r.Readable := by
    refine readable_of_mem_rulesFrom ?_ r hr (hdelimited r hr)
    nofun
  refine ⟨fun h => Validator.parse_eq_ok_iff.mpr ⟨h, read_render hreadable⟩, ?_⟩
  intro p hsound hcomplete hspace hkept
  rw [read_rules] at hreadable
  have hplaced (r : PlacedRule) (hr : r ∈ placed css) : (r.rule r.queries.getLast?).Readable :=
    hreadable _ (List.mem_map_of_mem hr)
  refine parse_render_of_inForm hsound hcomplete fun o ho => ?_
  rw [read_rules] at ho
  obtain ⟨r, hr, rfl⟩ := List.mem_map.mp ho
  obtain ⟨hselector, hwhole, hmedia⟩ := stands_of_mem_placed hsound haccepts
    (fun r hr => (hkept r hr).not_isStray (hplaced r hr)) hr
  exact ⟨hplaced r hr, (hkept r hr).inForm hspace (hplaced r hr) hselector hwhole hmedia⟩

/-- A string with a semicolon, an escape in the name of a property, a comment, a rule inside a rule,
and blocks that only the end of the text closes. -/
def keptParts : Text :=
  ".a[href=\"x;y\"]>b/**/ \x7b co\\6c or: red ".toList ++
    "!important; &:hover \x7b top: 0 \x7d; ".toList ++
    "left: calc(1px + 2px) \x7d @media print \x7b .c \x7b width: 0".toList

theorem parse_render_keptParts :
    ∃ s, parse keptParts = .ok s ∧ s.rules.length = 2 ∧ parse s.render = .ok s := by
  obtain ⟨haccepts, hlength, hdelimited, hkept⟩ : Validator.grammar.Accepts keptParts ∧
      (read keptParts).rules.length = 2 ∧ (∀ r ∈ (read keptParts).rules, r.Delimited) ∧
      ∀ r ∈ placed keptParts, r.Kept grammarParts := by
    decide +kernel
  have h : parse keptParts = .ok (read keptParts) := Validator.parse_eq_ok_iff.mpr ⟨haccepts, rfl⟩
  exact ⟨_, h, hlength, (parse_render h hdelimited).2 grammarParts Validator.grammar_sound
    Validator.grammar_complete Validator.grammar_ignoresSpace hkept⟩

/-- A comment that only the end of the text closes. -/
def unclosedComment : Text := ".a \x7b color: red /* x".toList

/-- The name of a property that needs its escape. -/
def escapedColon : Text := ".a \x7b \\3a x: 0 \x7d".toList

/-- The first sheet is another one when it is loaded again, whatever validator accepts it, and the
second is not accepted again. -/
theorem not_parse_render_unclosedComment :
    Validator.grammar.Accepts unclosedComment ∧
      (∀ (v : Validator) (s : Stylesheet), v.parse unclosedComment = .ok s →
        s.rules = [⟨".a".toList, [⟨"color".toList, "red /* x".toList, false⟩], none⟩] ∧
          ∀ t, v.parse s.render = .ok t →
            t.rules = [⟨".a".toList, [⟨"color".toList, "red /* x \x7d".toList, false⟩], none⟩]) ∧
      Validator.grammar.Accepts (read unclosedComment).render ∧
      Validator.grammar.Accepts escapedColon ∧
      (read escapedColon).rules = [⟨".a".toList, [⟨":x".toList, "0".toList, false⟩], none⟩] ∧
      ¬Validator.grammar.Accepts (read escapedColon).render := by
  obtain ⟨haccepts, hread, hagain, hescaped⟩ : Validator.grammar.Accepts unclosedComment ∧
      (read unclosedComment).rules =
        [⟨".a".toList, [⟨"color".toList, "red /* x".toList, false⟩], none⟩] ∧
      (read (read unclosedComment).render).rules =
        [⟨".a".toList, [⟨"color".toList, "red /* x \x7d".toList, false⟩], none⟩] ∧
      Validator.grammar.Accepts (read unclosedComment).render ∧
      Validator.grammar.Accepts escapedColon ∧
      (read escapedColon).rules = [⟨".a".toList, [⟨":x".toList, "0".toList, false⟩], none⟩] ∧
      ¬Validator.grammar.Accepts (read escapedColon).render := by
    decide +kernel
  refine ⟨haccepts, fun v s h => ?_, hescaped⟩
  obtain ⟨-, rfl⟩ := Validator.parse_eq_ok_iff.mp h
  refine ⟨hread, fun t ht => ?_⟩
  obtain ⟨-, rfl⟩ := Validator.parse_eq_ok_iff.mp ht
  exact hagain

end Stylesheet

end StyleRef

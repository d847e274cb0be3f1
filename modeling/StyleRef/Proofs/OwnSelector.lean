import StyleRef.Proofs.Placement
import StyleRef.Proofs.SelectorLists

/-
# References of a rule to itself

The placeholder in a token stands for the selector list of the rule that the token
is in, as a whole and as written.  A target is matched by single selectors.  So a
rule finds its own list among its selectors if the list is one selector to the
cut at commas, and neither it nor any other rule ever does if there is a comma in
it: no selector of any rule has one.

What becomes of a reference by which a rule asks for a property of its own follows
from this alone (`Stylesheet.parse_ownSelector`).  Of the text it is used that a loaded
list has no blanks at its ends, since the selectors are trimmed and the list that
the placeholder stands for is not.
-/

namespace StyleRef

open Css

namespace Rule

/-- A selector list is among the selectors that it names if it has no comma. -/
theorem selector_mem_selectors_iff {r : Rule} (h : r.selector.Tidy) :
    r.selector ∈ r.selectors ↔ ',' ∉ r.selector := by
  constructor
  · exact comma_not_mem_of_mem_selectors
  · intro hcomma
    have hsingle : r.selectors = [Text.trim r.selector] := Text.betweenCommas_of_not_mem hcomma
    rw [hsingle, Text.trim_eq_self h]
    exact List.mem_singleton_self _

end Rule

namespace RefToken

/-- Alone in its part, the placeholder stands for the list as it is. -/
theorem target_reference_of_ownSelector {t : RefToken} (h : Text.trim t.selector = [ownSelector])
    (owner : Text) (p : Place) :
    (t.reference owner p).target = ⟨owner, Text.trim t.property⟩ := by
  simp [reference, h, Text.expand]

end RefToken

namespace Stylesheet

variable {v : Validator} {css : Text} {s : Stylesheet}

theorem tidy_selector_of_parse (h : v.parse css = .ok s) : ∀ r ∈ s.rules, r.selector.Tidy := by
  obtain ⟨-, rfl⟩ := Validator.parse_eq_ok_iff.mp h
  intro r hr
  rw [read_rules] at hr
  obtain ⟨x, -, rfl⟩ := List.mem_map.mp hr
  exact Text.tidy_trim _

/-- A list is found by a rule of the sheet if it is the list of one and has no comma. -/
theorem exists_selector_mem_selectors_iff {o : Rule} (ho : o ∈ s.rules) (htidy : o.selector.Tidy) :
    (∃ r ∈ s.rules, o.selector ∈ r.selectors) ↔ ',' ∉ o.selector := by
  constructor
  · rintro ⟨r, -, hr⟩
    exact Rule.comma_not_mem_of_mem_selectors hr
  · intro hcomma
    exact ⟨o, ho, (Rule.selector_mem_selectors_iff htidy).mpr hcomma⟩

theorem mem_uncovered {scope : Scope} {sel : Text} :
    sel ∈ s.uncovered scope ↔ sel ∈ Asked.selectors s.references ∧
      (∀ r ∈ s.rules, sel ∉ r.selectors) ∧ ¬ s.Covered scope sel := by
  simp only [uncovered, List.mem_filter, decide_eq_true_eq]

/-- A target that no rule serves takes the fallback that reaches it, if there is one. -/
theorem supply?_of_unserved {scope : Scope} {t : Target} (h : ∀ r ∈ s.rules, ¬ r.Serves t) :
    s.supply? scope t = (Asked.fallback? scope s.references t).map .fallback := by
  rw [supply?, source?_eq_none_iff.mpr h]
  rfl

/-- What becomes of a reference by which a rule asks for a property of its own.  If the list of the
rule has no comma, the rule finds itself, so the selector is not reported, and a property that the
rule declares is taken from a declaration.  If it has one, no rule is found: the selector is reported
unless fallbacks cover it, and a fallback is all that there is to take, even where the rule declares
the property. -/
theorem parse_ownSelector {p : Place} {d : Declaration} {o : Rule} {before after : Text}
    {t : RefToken} (h : v.parse css = .ok s) (hd : s.declaration? p = some d)
    (ho : s.owner? p = some o) (hfind : RefToken.find? d.value = some (before, t, after))
    (hown : Text.trim t.selector = [ownSelector]) :
    ∃ r, s.reference? p = some r ∧ r.target = ⟨o.selector, Text.trim t.property⟩ ∧
      (r.target.selector ∈ o.selectors ↔ ',' ∉ o.selector) ∧
      ((∃ o' ∈ s.rules, r.target.selector ∈ o'.selectors) ↔ ',' ∉ o.selector) ∧
      ∀ scope,
        (∀ sels, (s.resolve scope).2 = .error (.unresolved sels) →
          (r.target.selector ∈ sels ↔ ',' ∈ o.selector ∧ ¬ s.Covered scope o.selector)) ∧
        ((∃ d' ∈ o.declarations, d'.property = r.target.property) →
          ((∃ q, ((Ledger.ofSheet scope s).visitAll s).bindings.get? r.target =
            some (.declaration q)) ↔ ',' ∉ o.selector)) ∧
        (',' ∈ o.selector → ((Ledger.ofSheet scope s).visitAll s).bindings.get? r.target =
          (Asked.fallback? scope s.references r.target).map .fallback) := by
  have hmem : o ∈ s.rules := List.mem_of_getElem? ho
  have htidy := tidy_selector_of_parse h o hmem
  have href : s.reference? p = some (t.reference o.selector p) := by
    simp [reference?, hd, ho, Reference.ofValue?, hfind]
  have htarget := RefToken.target_reference_of_ownSelector hown o.selector p
  refine ⟨t.reference o.selector p, href, htarget, ?_⟩
  generalize t.reference o.selector p = r at href htarget ⊢
  have hr : r ∈ s.references := mem_references_of_reference? href
  have hsel : r.target.selector = o.selector := by rw [htarget]
  have hrules := exists_selector_mem_selectors_iff hmem htidy
  have hbinding (scope : Scope) : ((Ledger.ofSheet scope s).visitAll s).bindings.get? r.target =
      s.supply? scope r.target := get?_bindings_of_mem hr
  have hunserved (hcomma : ',' ∈ o.selector) : ∀ o' ∈ s.rules, ¬ o'.Serves r.target := by
    intro o' ho' hserves
    exact Rule.comma_not_mem_of_mem_selectors hserves.1 (hsel ▸ hcomma)
  refine ⟨hsel ▸ Rule.selector_mem_selectors_iff htidy, hsel ▸ hrules, fun scope => ⟨?_, ?_, ?_⟩⟩
  · intro sels hsels
    obtain ⟨-, rfl⟩ := resolve_eq_unresolved_iff.mp hsels
    have hasked : o.selector ∈ Asked.selectors s.references := Asked.mem_selectors.mpr ⟨r, hr, hsel⟩
    have hnone : (∀ o' ∈ s.rules, o.selector ∉ o'.selectors) ↔ ',' ∈ o.selector := by
      rw [← not_iff_not, ← hrules]
      simp only [not_forall, not_not, exists_prop]
    rw [hsel, mem_uncovered, hnone]
    exact and_iff_right hasked
  · intro hdeclares
    rw [hbinding]
    simp only [supply?_eq_declaration_iff, exists_isSource_iff]
    constructor
    · rintro ⟨o', ho', hserves⟩ hcomma
      exact hunserved hcomma o' ho' hserves
    · intro hcomma
      exact ⟨o, hmem, hsel ▸ (Rule.selector_mem_selectors_iff htidy).mpr hcomma, hdeclares⟩
  · intro hcomma
    rw [hbinding, supply?_of_unserved (hunserved hcomma)]

/-- A rule for one selector, whose token has blanks around the placeholder. -/
def ownMargin : Text := ".x:hover { color: red; margin: ref( & , color, 0) }".toList

theorem parse_ownSelector_ownMargin :
    ∃ s r, parse ownMargin = .ok s ∧ s.reference? ⟨0, 1⟩ = some r ∧
      r.target = ⟨".x:hover".toList, "color".toList⟩ ∧
      (∃ o ∈ s.rules, r.target.selector ∈ o.selectors) ∧
      ∀ scope,
        (∀ sels, (s.resolve scope).2 = .error (.unresolved sels) → r.target.selector ∉ sels) ∧
        ∃ q, ((Ledger.ofSheet scope s).visitAll s).bindings.get? r.target =
          some (.declaration q) := by
  obtain ⟨haccepts, hrules, hfind⟩ : Validator.grammar.Accepts ownMargin ∧
      (read ownMargin).rules = [⟨".x:hover".toList, [⟨"color".toList, "red".toList, false⟩,
        ⟨"margin".toList, "ref( & , color, 0)".toList, false⟩], none⟩] ∧
      RefToken.find? "ref( & , color, 0)".toList =
        some ([], ⟨" & ".toList, " color".toList, some " 0".toList⟩, []) := by
    decide +kernel
  have h : parse ownMargin = .ok (read ownMargin) :=
    Validator.parse_eq_ok_iff.mpr ⟨haccepts, rfl⟩
  have hcomma : ',' ∉ ".x:hover".toList := by decide
  obtain ⟨r, href, htarget, -, hfound, houtcome⟩ := parse_ownSelector (p := ⟨0, 1⟩) h
    (by rw [declaration?, hrules]; rfl) (by rw [owner?, hrules]; rfl) hfind (by decide)
  refine ⟨_, r, h, href, by rw [htarget]; decide, hfound.mpr hcomma, fun scope => ?_⟩
  obtain ⟨hreported, hbound, -⟩ := houtcome scope
  refine ⟨fun sels hsels hmem => hcomma ((hreported sels hsels).mp hmem).1, ?_⟩
  exact (hbound ⟨⟨"color".toList, "red".toList, false⟩, by decide, by rw [htarget]; decide⟩).mpr
    hcomma

/-- A rule for two selectors. -/
def ownBackground : Text := ".x, .y { color: red; background: ref(&, color) }".toList

/-- A rule for one selector with a comma in brackets, and a fallback. -/
def ownFallback : Text := ".x:is(a, b) { color: red; background: ref(&, color, blue) }".toList

/-- The first rule does not find itself, and the second takes the fallback for the property that it
declares. -/
theorem not_parse_ownSelector_lists :
    Validator.grammar.Accepts ownBackground ∧
      (read ownBackground).references.map (·.target) = [⟨".x, .y".toList, "color".toList⟩] ∧
      (read ownBackground).rules.map Rule.selectors = [[".x".toList, ".y".toList]] ∧
      ((read ownBackground).resolve .selector).2 = .error (.unresolved [".x, .y".toList]) ∧
      Validator.grammar.Accepts ownFallback ∧
      ((Ledger.ofSheet .selector (read ownFallback)).visitAll (read ownFallback)).bindings.get?
        ⟨".x:is(a, b)".toList, "color".toList⟩ = some (.fallback "blue".toList) ∧
      transform .selector ownFallback =
        .ok ".x:is(a, b) \x7b color: red; background: blue \x7d\n".toList := by
  decide +kernel

end Stylesheet

end StyleRef

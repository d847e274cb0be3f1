import StyleRef.Proofs.Rereading
import StyleRef.Proofs.Validity

/-
# Loading what was written

A sheet whose parts are readable is read again as it was (`read_render`).  To be
loaded again its text has to be accepted too.  A text made of rules with
declarations is accepted if its parts pass the tests of the validator, so this
comes down to the parts as well: each selector list, each query and each value has
to be in form where it is written (`Rule.InForm`).  Main statement:
`parse_render_of_inForm`.
-/

namespace StyleRef

open Css

def Declaration.InForm (p : Parts) (d : Declaration) : Prop :=
  ∀ tail ∈ [[], [' ']], p.isValueOf d.property (withoutComments (lex (d.valueText ++ tail))) = true

/-- The parts of a rule are in form where they are written. -/
structure Rule.InForm (p : Parts) (r : Rule) : Prop where
  selector : p.isSelectorList (withoutComments (lex (r.selector ++ [' ']))) = true
  query : ∀ q ∈ r.media, p.isMediaList (withoutComments (lex (' ' :: q ++ [' ']))) = true
  declarations : ∀ d ∈ r.declarations, d.InForm p

variable {p : Parts}

/-! ## Blocks of rules -/

theorem entriesBehind_item {d : Declaration} (h : d.Readable) (hform : d.InForm p) {tail : Text}
    (htail : tail ∈ [[], [' ']]) (behind : Bool) (rest : List Token)
    (hrest : ∀ t ∈ rest.head?, t.isSemicolon = true) :
    ∃ b value, entriesBehind (some p.isValueOf) behind
        (lex (' ' :: d.property) ++ ⟨.colon, [':']⟩ :: (lex (d.valueText ++ tail) ++ rest)) =
      (b, .declaration d.property value) ::
        entriesBehind (some p.isValueOf) false (rest.drop 1) := by
  have hspan := spanTop_item h htail hrest
  have hvalue : isDeclarationOf p.isValueOf d.property
      (⟨.colon, [':']⟩ :: lex (d.valueText ++ tail)) = true := hform tail htail
  have hentry : takeEntry (some p.isValueOf) ⟨.ident d.property, d.property⟩
      (⟨.colon, [':']⟩ :: (lex (d.valueText ++ tail) ++ rest)) =
        (.declaration d.property (⟨.colon, [':']⟩ :: lex (d.valueText ++ tail)), rest.drop 1) := by
    simp only [takeEntry, hspan, Option.any_some, hvalue, ↓reduceIte]
  have hfront : (lex (' ' :: d.property) ++
      ⟨.colon, [':']⟩ :: (lex (d.valueText ++ tail) ++ rest)).dropWhile Token.separates = ⟨.ident d.property, d.property⟩ ::
        ⟨.colon, [':']⟩ :: (lex (d.valueText ++ tail) ++ rest) := by
    rw [h.property]
    rfl
  rw [entriesBehind_cons hfront, hentry]
  exact ⟨_, _, rfl⟩

/-- The entries of a block as it is written are declarations. -/
theorem isDeclaration_of_mem_inside {ds : List Declaration} (h : ∀ d ∈ ds, d.Readable ∧ d.InForm p)
    (behind : Bool) : ∀ e ∈ entriesBehind (some p.isValueOf) behind (lex (Rule.inside ds)),
      e.2.isDeclaration = true := by
  induction ds generalizing behind with
  | nil =>
    rw [show lex (Rule.inside []) = [] from rfl, entriesBehind_nil rfl]
    nofun
  | cons d ds ih =>
    obtain ⟨hd, hform⟩ := h d (by simp)
    have ih := ih fun e he => h e (List.mem_cons_of_mem d he)
    cases ds with
    | nil =>
      obtain ⟨b, value, hitem⟩ :=
        entriesBehind_item hd hform blank_mem_tails behind [] (by simp)
      rw [List.append_nil] at hitem
      rw [Rule.inside, lex_append_mark hd.property_closed rfl]
      rw [show (⟨punctuation ':', [':']⟩ : Token) = ⟨.colon, [':']⟩ from rfl, hitem, List.drop_nil,
        entriesBehind_nil rfl]
      simp [Entry.isDeclaration]
    | cons e ds =>
      have hclosed := hd.value_closed [] (by simp)
      obtain ⟨b, value, hitem⟩ := entriesBehind_item hd hform List.mem_cons_self behind
        (⟨.semicolon, [';']⟩ :: lex (Rule.inside (e :: ds))) (by simp [Token.isSemicolon])
      rw [List.append_nil] at hclosed hitem
      rw [Rule.inside_cons_cons, lex_append_mark hd.property_closed rfl,
        lex_append_mark hclosed rfl]
      rw [show (⟨punctuation ':', [':']⟩ : Token) = ⟨.colon, [':']⟩ from rfl,
        show (⟨punctuation ';', [';']⟩ : Token) = ⟨.semicolon, [';']⟩ from rfl, hitem,
        List.forall_mem_cons]
      exact ⟨rfl, ih false⟩

/-- A rule as it is written has a list of selectors and declarations only. -/
theorem takesRule_inside {r : Rule} (h : r.Readable) (hform : r.InForm p) :
    p.TakesRule (lex (r.selector ++ [' '])) (lex (Rule.inside r.declarations)) :=
  ⟨hform.selector, isDeclaration_of_mem_inside
    (fun d hd => ⟨h.declarations d hd, hform.declarations d hd⟩) false⟩

/-! ## Lists of rules -/

section Lists
variable {v : Validator} (hsound : v.Sound p)
include hsound

theorem entriesBehind_render {r : Rule} (h : r.Readable) (hform : r.InForm p) (behind : Bool)
    {ws : Text} (hws : ∀ c ∈ ws, isSpace c = true) (s : Text) :
    ∃ b b', entriesBehind none behind (lex (ws ++ (r.render ++ s))) =
      (b, .rule (lex (r.selector ++ [' '])) (some (lex (Rule.inside r.declarations)))) ::
        entriesBehind none b' (lex s) := by
  obtain ⟨t, ts, hbegins, hfiller, hat⟩ := h.begins
  have hseparates : t.separates = false := by
    have hselector := hform.selector
    simp only [Token.isFiller, Bool.or_eq_false_iff] at hfiller
    rw [hbegins, withoutComments_cons fun hkind => by simp [Token.isGap, hkind] at hfiller]
      at hselector
    rw [Token.separates, hfiller.1.1, Bool.false_or]
    refine Bool.eq_false_iff.mpr fun hsemicolon => ?_
    rw [hsound.marks t (by simp [of_decide_eq_true hsemicolon])] at hselector
    cases hselector
  have htake := takeUntil_block h.selector_whole (t := ⟨.opening .curly, ['{']⟩)
    (u := ⟨.closing .curly, ['}']⟩) rfl rfl (settled_inside h.declarations).settles rfl (lex s)
  have hfront := dropWhile_lex_append (fun _ => Token.separates_of_isGap) hws (r.render ++ s)
  rw [lex_render_append h, hbegins, List.cons_append,
    List.dropWhile_cons_of_neg (by simp [hseparates])] at hfront
  rw [hbegins, List.cons_append] at htake
  have hentry := takeRuleEntry_eq hseparates (List.forall_mem_nil _) (ts ++ ⟨.opening .curly, ['{']⟩ ::
    (lex (Rule.inside r.declarations) ++ ⟨.closing .curly, ['}']⟩ :: lex s))
  rw [List.nil_append, htake, Statement.entry, List.dropWhile_cons_of_neg (by simp [hseparates])]
    at hentry
  rw [entriesBehind_cons hfront, takeEntry_none hat, hentry, hbegins]
  exact ⟨_, _, rfl⟩

theorem rule_of_mem_lines {rs : List Rule} (h : ∀ r ∈ rs, r.Readable ∧ r.InForm p) (behind : Bool)
    {ws : Text} (hws : ∀ c ∈ ws, isSpace c = true) :
    ∀ e ∈ entriesBehind none behind (lex (ws ++ rs.flatMap Stylesheet.line)), ∃ r ∈ rs,
      e.2 = .rule (lex (r.selector ++ [' '])) (some (lex (Rule.inside r.declarations))) := by
  induction rs generalizing behind ws with
  | nil =>
    have hdrop := dropWhile_lex_append (fun _ => Token.separates_of_isGap) hws []
    rw [List.flatMap_nil, entriesBehind_nil hdrop]
    simp
  | cons r rs ih =>
    obtain ⟨hr, hform⟩ := h r (by simp)
    have ih := ih fun a ha => h a (List.mem_cons_of_mem r ha)
    obtain ⟨indent, hindent, hline⟩ := Stylesheet.line_append r (rs.flatMap Stylesheet.line)
    have hall : ∀ c ∈ ws ++ indent, isSpace c = true := fun c hc =>
      (List.mem_append.mp hc).elim (hws c) (hindent c)
    obtain ⟨b, b', hentries⟩ :=
      entriesBehind_render hsound hr hform behind hall (['\n'] ++ rs.flatMap Stylesheet.line)
    rw [List.flatMap_cons, hline, ← List.append_assoc, hentries, List.forall_mem_cons]
    refine ⟨⟨r, List.mem_cons_self, rfl⟩, fun e he => ?_⟩
    obtain ⟨a, ha, heq⟩ := ih b' isSpace_newline e he
    exact ⟨a, List.mem_cons_of_mem r ha, heq⟩

namespace Stylesheet

/-- Rules under one query are written as an `@media` of rules, and others as rules. -/
theorem takesStatement_of_mem_statementsOf {media : Option Text} {rs : List Rule} (hne : rs ≠ [])
    (hmedia : ∀ r ∈ rs, r.media = media) (h : ∀ r ∈ rs, r.Readable ∧ r.InForm p) :
    ∀ s ∈ statementsOf (media, rs), p.TakesStatement s := by
  intro s hs
  cases media with
  | none =>
    obtain ⟨r, hr, rfl⟩ := List.mem_map.mp hs
    exact takesRule_inside (h r hr).1 (h r hr).2
  | some q =>
    obtain rfl := List.mem_singleton.mp hs
    obtain ⟨r, hr⟩ := List.exists_mem_of_ne_nil rs hne
    refine ⟨by decide, (h r hr).2.query q (hmedia r hr), fun e he => ?_⟩
    obtain ⟨r, hr, heq⟩ := rule_of_mem_lines hsound h false isSpace_newline e he
    exact ⟨_, _, heq, takesRule_inside (h r hr).1 (h r hr).2⟩

/-- The text of a sheet whose parts are readable and in form is accepted, and loads to the sheet. -/
theorem parse_render_of_inForm (hcomplete : v.Complete p) {s : Stylesheet}
    (h : ∀ r ∈ s.rules, r.Readable ∧ r.InForm p) : v.parse s.render = .ok s := by
  refine Validator.parse_eq_ok_iff.mpr ⟨hcomplete _ ?_, read_render fun r hr => (h r hr).1⟩
  obtain ⟨groups, hrules, hmedia, hstatements⟩ := statements_render fun r hr => (h r hr).1
  rw [show statements (lex s.render) = _ from hstatements]
  intro statement hstatement
  obtain ⟨⟨media, rs⟩, hg, hstatement⟩ := List.mem_flatMap.mp hstatement
  obtain ⟨hne, hsame⟩ : rs ≠ [] ∧ ∀ r ∈ rs, r.media = media := hmedia _ hg
  refine takesStatement_of_mem_statementsOf hsound hne hsame (fun r hr => h r ?_) _ hstatement
  rw [hrules]
  exact List.mem_flatMap.mpr ⟨_, hg, hr⟩

end Stylesheet

end Lists

end StyleRef

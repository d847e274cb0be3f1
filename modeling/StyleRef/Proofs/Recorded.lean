import StyleRef.Proofs.Grammar
import StyleRef.Proofs.Standing

/-
# Which declarations are recorded

An accepted text has rules inside rules, the loaded sheet has not.  What the block
of a rule is cut into (`entries`) tells which of its declarations are recorded: all
but those that are behind a rule inside the rule, up to the semicolon that the
reader passes over the rule with (`Stylesheet.parse_declarations`).

Three things make the reader take for something else what is a rule to the
validator: a rule inside a rule that begins with an identifier and a colon is
recorded as a declaration, what stands behind a semicolon between rules is taken
for a rule even if it is an at-rule or begins as a custom property does, and a rule
that begins as a custom property does is not read elsewhere.
-/

namespace StyleRef

namespace Css

section Declarations
variable {check : ValueCheck} {ts : List Token}

theorem isDeclarationOf_of_mem {values : Option ValueCheck} {behind b : Bool} {property : Text}
    {value : List Token}
    (h : (b, Entry.declaration property value) ∈ entriesBehind values behind ts) :
    values.any (isDeclarationOf · property value) = true := by
  obtain ⟨_, us, found, _, _, hstep, hmem, -⟩ := exists_step_of_mem (entryStep_lt values) h
  simp only [entryStep] at hstep
  split at hstep
  · cases hstep
  · next t rest heq =>
    cases hstep
    have hentry := congrArg Prod.snd (List.mem_singleton.mp hmem)
    simp only [takeEntry, takeRuleEntry] at hentry
    split at hentry
    · cases hentry
    · split at hentry
      · next hany =>
        cases hentry
        exact hany
      · cases hentry
    · cases hentry

/-- A declaration of the block is one to the reader too. -/
theorem isSome_declaration? {property : Text} {value : List Token}
    (h : isDeclarationOf check property value = true) :
    (declaration? property value).isSome = true := by
  rw [isDeclarationOf] at h
  split at h
  · next heq =>
    rw [declaration?, heq]
    rfl
  · cases h

theorem declaration?_eq_none_iff_of_mem {e : Bool × Entry} (he : e ∈ entries (some check) ts) :
    e.2.declaration? = none ↔ e.2.isDeclaration = false := by
  obtain ⟨b, e⟩ := e
  match e with
  | .declaration property value =>
    have hsome := isSome_declaration? (isDeclarationOf_of_mem he)
    rw [Option.isSome_iff_ne_none] at hsome
    simpa [Entry.isDeclaration, Entry.declaration?] using hsome
  | .atRule _ _ _ => exact ⟨fun _ => rfl, fun _ => rfl⟩
  | .rule _ _ => exact ⟨fun _ => rfl, fun _ => rfl⟩

/-- The declarations that are not behind a rule are all there are if and only if none is behind one. -/
theorem openDeclarations_eq_iff :
    openDeclarations check ts = directDeclarations check ts ↔
      ∀ e ∈ entries (some check) ts, e.1 = true → e.2.isDeclaration = false := by
  have hnone : (∀ e ∈ entries (some check) ts, e.1 = true → e.2.isDeclaration = false) ↔
      ∀ e ∈ entries (some check) ts, e.1 = true → e.2.declaration? = none :=
    forall₂_congr fun e he => by rw [declaration?_eq_none_iff_of_mem he]
  rw [hnone, openDeclarations, directDeclarations]
  generalize entries (some check) ts = es
  induction es with
  | nil => simp
  | cons e es ih =>
    obtain ⟨behind, e⟩ := e
    cases behind with
    | false =>
      rw [List.filter_cons_of_pos (by rfl), List.filterMap_cons, List.filterMap_cons]
      cases hd : e.declaration? <;> simpa [hd] using ih
    | true =>
      rw [List.filter_cons_of_neg (by simp), List.filterMap_cons, List.forall_mem_cons]
      cases hd : e.declaration? with
      | none => simpa [hd] using ih
      | some d =>
        have hle : ((es.filter (!·.1)).filterMap (·.2.declaration?)).length ≤
            (es.filterMap (·.2.declaration?)).length :=
          (List.filter_sublist.filterMap _).length_le
        refine ⟨fun h => ?_, fun h => ?_⟩
        · have := congrArg List.length h
          rw [List.length_cons] at this
          omega
        · cases h.1 rfl

end Declarations

end Css

open Css

namespace Stylesheet

variable {v : Validator} {p : Parts} {css : Text} {s : Stylesheet}

/-- Which declarations the rules of a loaded sheet have. -/
theorem parse_declarations (hsound : v.Sound p) (h : v.parse css = .ok s)
    (hstray : ∀ r ∈ placed css, r.isStray = false) :
    s.rules.length = (styleRules css).length ∧
      ∀ (i : Nat) (r : PlacedRule), (styleRules css)[i]? = some r →
        ∃ o, s.rules[i]? = some o ∧
          ((∀ e ∈ entries (some p.isValueOf) r.block, e.1 = false → e.2.beginsDeclaration = false) →
            o.declarations = openDeclarations p.isValueOf r.block ∧
              (o.declarations = directDeclarations p.isValueOf r.block ↔
                ∀ e ∈ entries (some p.isValueOf) r.block,
                  e.1 = true → e.2.isDeclaration = false)) := by
  obtain ⟨haccepts, rfl⟩ := Validator.parse_eq_ok_iff.mp h
  have hplaced := placed_eq_standing hsound haccepts hstray
  refine ⟨by rw [read_rules, ← hplaced, List.length_map, List.length_map], ?_⟩
  intro i r hr
  rw [← hplaced, List.getElem?_map, Option.map_eq_some_iff] at hr
  obtain ⟨r, hr, rfl⟩ := hr
  have hwhole := (stands_of_mem_placed hsound haccepts hstray (List.mem_of_getElem? hr)).2.1
  refine ⟨r.rule r.queries.getLast?, by rw [read_rules, List.getElem?_map, hr]; rfl, fun hread => ?_⟩
  have hopen : (r.rule r.queries.getLast?).declarations =
      openDeclarations p.isValueOf r.trimmed.block := declarations_eq_open hwhole hread
  refine ⟨hopen, ?_⟩
  rw [hopen]
  exact openDeclarations_eq_iff

/-- Rules and at-rules inside rules, with no declaration behind a rule. -/
def endedRules : Text :=
  ".a { &:hover { top: 0 }; top: 1; @media print { top: 2 } left: 0 } @media all { .b { } }".toList

theorem parse_declarations_endedRules :
    ∃ s, parse endedRules = .ok s ∧ s.rules.length = 2 ∧
      ∀ (i : Nat) (r : PlacedRule), (styleRules endedRules)[i]? = some r →
        ∃ o, s.rules[i]? = some o ∧ o.declarations = directDeclarations isValueOf r.block := by
  obtain ⟨haccepts, hstray, hentries, hlength⟩ : Validator.grammar.Accepts endedRules ∧
      (∀ r ∈ placed endedRules, r.isStray = false) ∧
      (∀ r ∈ styleRules endedRules, ∀ e ∈ entries (some isValueOf) r.block,
        e.2.beginsDeclaration = false ∧ e.1 = false) ∧
      (styleRules endedRules).length = 2 := by
    decide +kernel
  have h := Validator.parse_eq_ok_iff.mpr ⟨haccepts, rfl⟩
  have hrules := parse_declarations Validator.grammar_sound h hstray
  refine ⟨_, h, hrules.1.trans hlength, fun i r hr => ?_⟩
  have hentries := hentries r (List.mem_of_getElem? hr)
  obtain ⟨o, ho, hdeclarations⟩ := hrules.2 i r hr
  refine ⟨o, ho, (hdeclarations fun e he _ => (hentries e he).1).2.mpr fun e he hbehind => ?_⟩
  rw [(hentries e he).2] at hbehind
  cases hbehind

/-- A declaration behind a rule inside the rule, and a rule that begins as a declaration does. -/
def hoverRules : Text :=
  ".a { &:hover { top: 0 } top: 1; left: 0 } .b { i:hover { top: 0 } }".toList

/-- The first rule has lost a declaration, and the second has got one.  This is so whatever validator
accepts the text. -/
theorem not_parse_declarations_hoverRules :
    Validator.grammar.Accepts hoverRules ∧
      (styleRules hoverRules).map (fun r => directDeclarations isValueOf r.block) =
        [[⟨"top".toList, "1".toList, false⟩, ⟨"left".toList, "0".toList, false⟩], []] ∧
      ∀ (v : Validator) (s : Stylesheet), v.parse hoverRules = .ok s →
        s.rules.map (·.declarations) =
          [[⟨"left".toList, "0".toList, false⟩],
            [⟨"i".toList, "hover { top: 0 }".toList, false⟩]] := by
  obtain ⟨haccepts, hdirect, hread⟩ : Validator.grammar.Accepts hoverRules ∧
      (styleRules hoverRules).map (fun r => directDeclarations isValueOf r.block) =
        [[⟨"top".toList, "1".toList, false⟩, ⟨"left".toList, "0".toList, false⟩], []] ∧
      (read hoverRules).rules.map (·.declarations) =
        [[⟨"left".toList, "0".toList, false⟩],
          [⟨"i".toList, "hover { top: 0 }".toList, false⟩]] := by
    decide +kernel
  refine ⟨haccepts, hdirect, fun v s h => ?_⟩
  obtain ⟨-, rfl⟩ := Validator.parse_eq_ok_iff.mp h
  exact hread

end Stylesheet

end StyleRef

import StyleRef.Proofs.MediaRuns
import StyleRef.Proofs.Pieces
import StyleRef.Proofs.Outcome
import StyleRef.Transform

/-
# Where rules stand

A rule stands in a text under the queries of all the `@media` blocks around it.
A loaded rule has room for one query, and that is the innermost: what a rule of a
sheet says of its place is all there is to say exactly for the rules under one
query at most.

The printer writes each rule in a block of its query and of no other
(`Stylesheet.inBlocks_render`), and a resolution does not move rules, so a transformed text
has each rule under the innermost query again.
-/

namespace StyleRef

namespace Css

/-! ## The rules of a text -/

/-- A rule where it stands in a text. -/
structure PlacedRule where
  /-- The preludes of the `@media` blocks around the rule, the outermost first. -/
  media : List (List Token)
  prelude : List Token
  block : List Token
deriving DecidableEq

/-- The queries of the blocks around the rule. -/
def PlacedRule.queries (r : PlacedRule) : List Text := r.media.map slice

def PlacedRule.rule (r : PlacedRule) (media : Option Text) : Rule :=
  ⟨slice r.prelude, declarations r.block, media⟩

/-- The rules in a list under the preludes, in document order, down to the given depth of blocks. -/
def placedFrom : Nat → List (List Token) → List Token → List PlacedRule
  | 0, _, _ => []
  | depth + 1, media, ts =>
    (statements ts).flatMap fun
      | .qualified prelude (some block) =>
        if startsCustomProperty prelude then [] else [⟨media, prelude, block⟩]
      | .atRule name prelude (some block) =>
        if Text.sameIgnoringCase name "media".toList then
          placedFrom depth (media ++ [prelude]) block
        else []
      | _ => []

def placed (css : Text) : List PlacedRule := placedFrom ((lex css).length + 1) [] (lex css)

theorem rulesFrom_eq (depth : Nat) (media : List (List Token)) (ts : List Token) :
    rulesFrom depth (media.getLast?.map slice) ts =
      (placedFrom depth media ts).map fun r => r.rule r.queries.getLast? := by
  induction depth generalizing media ts with
  | zero => rfl
  | succ depth ih =>
    rw [rulesFrom, placedFrom, List.map_flatMap]
    congr 1
    funext s
    match s with
    | .qualified prelude (some block) =>
      simp only
      split
      · rfl
      · rw [List.map_singleton, PlacedRule.rule, PlacedRule.queries, List.getLast?_map]
    | .atRule name prelude (some block) =>
      have ih := ih (media ++ [prelude]) block
      rw [List.getLast?_concat] at ih
      simp only
      split
      · exact ih
      · rfl
    | .qualified _ none => rfl
    | .atRule _ _ none => rfl

end Css

open Css

namespace Stylesheet

variable {v : Validator} {css text : Text} {s : Stylesheet}

theorem read_rules (css : Text) :
    (read css).rules = (placed css).map fun r => r.rule r.queries.getLast? :=
  rulesFrom_eq _ [] _

theorem rules_of_parse (h : v.parse css = .ok s) :
    s.rules = (placed css).map fun r => r.rule r.queries.getLast? := by
  rw [← read_rules, (Validator.parse_eq_ok_iff.mp h).2]

/-- Of one query at most, none is lost. -/
theorem toList_getLast?_queries {qs : List Text} (hqs : qs.length ≤ 1) : qs.getLast?.toList = qs := by
  match qs with
  | [] => rfl
  | [q] => rfl
  | _ :: _ :: _ => simp at hqs

/-- What a transformed text says of the rules: all that the sheet said, apart from values. -/
theorem exists_skeleton_of_transform {scope : Scope} (h : v.transform scope css = .ok text) :
    ∃ s' : Stylesheet, s'.skeleton = (read css).skeleton ∧ text = s'.render := by
  rw [Validator.transform] at h
  cases hparse : v.parse css with
  | error fault =>
    rw [hparse] at h
    cases h
  | ok s =>
    obtain ⟨-, rfl⟩ := Validator.parse_eq_ok_iff.mp hparse
    rw [hparse] at h
    cases hresolve : (read css).resolve scope with
    | mk s' result =>
      simp only [hresolve] at h
      cases result with
      | error fault => cases h
      | ok report =>
        refine ⟨s', (isResolution_of_resolve hresolve).1.skeleton, ?_⟩
        exact (Except.ok.inj h).symm

/-- Where the rules of a loaded sheet stand. -/
theorem parse_placed (h : v.parse css = .ok s) :
    s.rules = (placed css).map (fun r => r.rule r.queries.getLast?) ∧
      (∀ (i : Nat) (r : PlacedRule), (placed css)[i]? = some r → r.queries.length ≤ 1 →
        ∃ o, s.rules[i]? = some o ∧ o.media.toList = r.queries) ∧
      (∀ css', v.parse css' = .ok s →
        (placed css').length = (placed css).length ∧
          ∀ (i : Nat) (r r' : PlacedRule), (placed css)[i]? = some r →
            (placed css')[i]? = some r' → r.queries.length ≤ 1 → r'.queries.length ≤ 1 →
              r.queries = r'.queries) ∧
      ∀ scope text, v.transform scope css = .ok text →
        ∃ rs, InBlocks rs text ∧
          rs.map (fun o => (o.selector, o.media)) =
            (placed css).map fun r => (slice r.prelude, r.queries.getLast?) := by
  have hmedia {css : Text} (h : v.parse css = .ok s) {i : Nat} {r : PlacedRule}
      (hr : (placed css)[i]? = some r) : (s.rules[i]?).map (·.media) = some r.queries.getLast? := by
    rw [rules_of_parse h, List.getElem?_map, hr]
    rfl
  refine ⟨rules_of_parse h, ?_, ?_, ?_⟩
  · intro i r hr hqs
    refine ⟨r.rule r.queries.getLast?, ?_, toList_getLast?_queries hqs⟩
    rw [rules_of_parse h, List.getElem?_map, hr]
    rfl
  · intro css' h'
    have hplaced := (rules_of_parse h').symm.trans (rules_of_parse h)
    refine ⟨by simpa using congrArg List.length hplaced, ?_⟩
    intro i r r' hr hr' hqs hqs'
    have hlast : r.queries.getLast? = r'.queries.getLast? :=
      Option.some.inj ((hmedia h hr).symm.trans (hmedia h' hr'))
    rw [← toList_getLast?_queries hqs, hlast, toList_getLast?_queries hqs']
  · intro scope text htext
    obtain ⟨s', hskeleton, rfl⟩ := exists_skeleton_of_transform htext
    refine ⟨s'.rules, inBlocks_render s', ?_⟩
    have hshape := congrArg (List.map fun x => (x.1, x.2.1)) hskeleton
    simp only [skeleton, List.map_map] at hshape
    rw [(Validator.parse_eq_ok_iff.mp h).2, rules_of_parse h, List.map_map] at hshape
    exact hshape

/-- Two rules under a query, and one under none. -/
def shallow : Text :=
  "@media print { .a { color: ref(.b, color) } .a i { } } .b { color: red }".toList

theorem parse_placed_shallow :
    ∃ s text, parse shallow = .ok s ∧ transform .selector shallow = .ok text ∧
      s.rules.map (·.media.toList) = (placed shallow).map (·.queries) ∧
      ∃ rs, InBlocks rs text ∧ rs.map (fun o => (o.selector, o.media)) =
        [(".a".toList, some "print".toList), (".a i".toList, some "print".toList),
          (".b".toList, none)] := by
  obtain ⟨haccepts, htext, hqueries, hplaces⟩ : Validator.grammar.Accepts shallow ∧
      transform .selector shallow =
        .ok "@media print \x7b\n  .a { color: red }\n  .a i {}\n\x7d\n.b { color: red }\n".toList ∧
      ((placed shallow).map fun r => r.rule r.queries.getLast?).map (·.media.toList) =
        (placed shallow).map (·.queries) ∧
      ((placed shallow).map fun r => (slice r.prelude, r.queries.getLast?)) =
        [(".a".toList, some "print".toList), (".a i".toList, some "print".toList),
          (".b".toList, none)] := by
    decide +kernel
  have h : Validator.grammar.parse shallow = .ok (read shallow) :=
    Validator.parse_eq_ok_iff.mpr ⟨haccepts, rfl⟩
  obtain ⟨hrules, -, -, htransform⟩ := parse_placed h
  obtain ⟨rs, hblocks, hrs⟩ := htransform _ _ htext
  exact ⟨_, _, h, htext, hrules ▸ hqueries, rs, hblocks, hrs.trans hplaces⟩

/-- A rule under two queries. -/
def nestedQueries : Text := "@media print { @media (color) { .a { color: red } } }".toList

def innerQuery : Text := "@media (color) { .a { color: red } }".toList

/-- The outer query is lost, so the two texts are one sheet. -/
theorem not_parse_placed_nestedQueries :
    Validator.grammar.Accepts nestedQueries ∧ Validator.grammar.Accepts innerQuery ∧
      (placed nestedQueries).map (·.queries) = [["print".toList, "(color)".toList]] ∧
      (placed innerQuery).map (·.queries) = [["(color)".toList]] ∧
      (read nestedQueries).rules.map (·.media.toList) = [["(color)".toList]] ∧
      read nestedQueries = read innerQuery ∧
      transform .selector nestedQueries =
        .ok "@media (color) \x7b\n  .a { color: red }\n\x7d\n".toList := by
  decide +kernel

end Stylesheet

end StyleRef

import StyleRef.Proofs.Placement

/-
# Values as tokens

A loaded declaration has a text for its value.  Where the value is looked at token
by token, it is the tokens behind the colon that count, and what is loaded is made
from these (`declarations_eq_map`).  They stand in the text one item after the other
(`placedStep_cases`), so facts about the tokens of the whole text hold of them.
-/

namespace StyleRef

namespace Css

/-! ## Declarations where they stand -/

/-- A declaration where it stands in a text. -/
structure PlacedDeclaration where
  property : Text
  /-- The tokens behind the colon. -/
  value : List Token
deriving DecidableEq

def PlacedDeclaration.declaration (x : PlacedDeclaration) : Declaration :=
  let (value, important) := splitImportant (textOf x.value)
  ⟨x.property, value, important⟩

/-- The declaration that the tokens behind a property's name make, if a colon comes first. -/
def placedDeclaration? (property : Text) (ts : List Token) : Option PlacedDeclaration :=
  match skipGaps ts with
  | ⟨.colon, _⟩ :: value => some ⟨property, value⟩
  | _ => none

def placedStep (_ : Unit) (ts : List Token) :
    Option (List PlacedDeclaration × Unit × List Token) :=
  match ts.dropWhile fun t => t.isGap || t.isSemicolon with
  | [] => none
  | t :: rest =>
    match t.kind with
    | .atKeyword _ => some ([], (), (takeAtRule rest).2.2)
    | .ident property =>
      let (item, after) := spanTop Token.isSemicolon rest
      some ((placedDeclaration? property item).toList, (), after.drop 1)
    | _ => some ([], (), (spanTop Token.isSemicolon (t :: rest)).2.drop 1)

def placedDeclarations (ts : List Token) : List PlacedDeclaration :=
  pieces placedStep ts.length () ts

theorem declaration?_eq_map (property : Text) (ts : List Token) :
    declaration? property ts = (placedDeclaration? property ts).map (·.declaration) := by
  rw [declaration?, placedDeclaration?]
  cases skipGaps ts with
  | nil => rfl
  | cons t value =>
    obtain ⟨kind, text⟩ := t
    cases kind <;> rfl

theorem declarationStep_eq_map (u : Unit) (ts : List Token) :
    declarationStep u ts =
      (placedStep u ts).map fun (found, u, rest) => (found.map (·.declaration), u, rest) := by
  rw [declarationStep, placedStep]
  cases ts.dropWhile fun t => t.isGap || t.isSemicolon with
  | nil => rfl
  | cons t rest =>
    simp only
    cases t.kind with
    | ident property => simp [declaration?_eq_map, Option.toList_map]
    | _ => rfl

/-- What is loaded of a block are its declarations. -/
theorem declarations_eq_map (ts : List Token) :
    declarations ts = (placedDeclarations ts).map (·.declaration) := by
  rw [declarations, declarationsFrom_eq, placedDeclarations]
  exact pieces_map id (f := id) declarationStep_eq_map ts.length () ts

/-! ## Their place in the text -/

theorem value_suffix {property : Text} {ts : List Token} {x : PlacedDeclaration}
    (h : placedDeclaration? property ts = some x) : x.value <:+ ts := by
  have hskip : skipGaps ts <:+ ts := List.dropWhile_suffix _
  rw [placedDeclaration?] at h
  split at h
  · next text value heq =>
    cases h
    rw [heq] at hskip
    exact (List.suffix_cons _ value).trans hskip
  · cases h

/-- The item at the front of a block comes to nothing, or to a declaration whose value does not come
first. -/
theorem placedStep_cases {u u' : Unit} {ts rest : List Token} {found : List PlacedDeclaration}
    (h : placedStep u ts = some (found, u', rest)) :
    (found = [] ∧ rest <:+ ts) ∨
      ∃ x before after, found = [x] ∧ ts = before ++ (x.value ++ (after ++ rest)) ∧
        before ≠ [] := by
  have hdrop := List.dropWhile_suffix (l := ts) fun t => t.isGap || t.isSemicolon
  have hspan (us : List Token) : (spanTop Token.isSemicolon us).2.drop 1 <:+ us :=
    (List.drop_suffix _ _).trans ⟨_, spanTop_append _ us⟩
  simp only [placedStep] at h
  split at h
  · cases h
  · next t us hts =>
    rw [hts] at hdrop
    have hus : us <:+ ts := (List.suffix_cons t us).trans hdrop
    split at h
    · cases h
      exact .inl ⟨rfl, (suffix_takeUntil _ _).trans ((List.tail_suffix us).trans hus)⟩
    · next property _ =>
      cases h
      cases hx : placedDeclaration? property (spanTop Token.isSemicolon us).1 with
      | none => exact .inl ⟨rfl, (hspan us).trans hus⟩
      | some x =>
        obtain ⟨front, hfront⟩ := value_suffix hx
        obtain ⟨gap, hgap⟩ := hdrop
        refine .inr ⟨x, gap ++ t :: front, (spanTop Token.isSemicolon us).2.take 1, rfl, ?_, by simp⟩
        rw [List.take_append_drop, ← hgap]
        conv_lhs => rw [← spanTop_append Token.isSemicolon us, ← hfront]
        simp only [List.append_assoc, List.cons_append]
    · cases h
      exact .inl ⟨rfl, (hspan _).trans hdrop⟩

theorem value_isInfix {ts : List Token} {x : PlacedDeclaration} (h : x ∈ placedDeclarations ts) :
    x.value <:+: ts := by
  have hsuffix (u : Unit) (ts : List Token) (found : List PlacedDeclaration) (u' : Unit)
      (rest : List Token) (h : placedStep u ts = some (found, u', rest)) : rest <:+ ts := by
    rcases placedStep_cases h with ⟨-, h⟩ | ⟨x, before, after, -, rfl, -⟩
    · exact h
    · exact ⟨before ++ (x.value ++ after), by simp⟩
  obtain ⟨_, us, found, _, rest, hstep, hx, hus⟩ := exists_suffix_of_mem hsuffix h
  rcases placedStep_cases hstep with ⟨rfl, -⟩ | ⟨x', before, after, rfl, rfl, -⟩
  · cases hx
  · obtain rfl := List.mem_singleton.mp hx
    exact List.IsInfix.trans ⟨before, after ++ rest, by simp⟩ hus.isInfix

/-- The block of a rule stands in the text. -/
theorem block_isInfix {depth : Nat} {media : List (List Token)} {ts : List Token} {r : PlacedRule}
    (h : r ∈ placedFrom depth media ts) : r.block <:+: ts := by
  induction depth generalizing media ts with
  | zero => cases h
  | succ depth ih =>
    rw [placedFrom] at h
    obtain ⟨s, hs, hr⟩ := List.mem_flatMap.mp h
    cases s with
    | qualified prelude block =>
      cases block with
      | none => cases hr
      | some block =>
        simp only at hr
        split at hr
        · cases hr
        · obtain rfl := List.mem_singleton.mp hr
          exact block_isInfix_of_mem_statements hs rfl
    | atRule name prelude block =>
      cases block with
      | none => cases hr
      | some block =>
        simp only at hr
        split at hr
        · exact (ih hr).trans (block_isInfix_of_mem_statements hs rfl)
        · cases hr

end Css

end StyleRef

import StyleRef.Proofs.QuerySpace
import StyleRef.Proofs.SelectorSpace
import StyleRef.Proofs.Validity
import StyleRef.Proofs.ValueSpace

/-
# The grammar as a validator

The grammar of style sheets looks at tokens without comments, and cuts a block
where it has to be cut into entries (`items_withoutComments`).  So its tests of
selectors, of queries and of values say what an accepted text is made of, and that
a text made of rules with declarations is accepted (`grammar_sound`,
`grammar_complete`).
-/

namespace StyleRef

namespace Css

def grammarParts : Parts where
  isSelectorList := isSelectorList false
  isMediaList := isMediaList
  isValueOf := isValueOf

/-! ## Items -/

def Entry.item : Entry → Item
  | .atRule name prelude block =>
    .atRule name (withoutComments prelude) (block.map withoutComments)
  | .declaration _ _ => .declaration
  | .rule prelude block => .rule (withoutComments prelude) (block.map withoutComments)

theorem skipSpace_withoutComments (ts : List Token) :
    skipSpace (withoutComments ts) = withoutComments (skipGaps ts) := by
  induction ts with
  | nil => rfl
  | cons t ts ih =>
    by_cases hcomment : t.kind = .comment
    · rw [withoutComments_cons_of_comment hcomment, ih, skipGaps, skipGaps,
        List.dropWhile_cons_of_pos (Token.isGap_of_comment hcomment)]
    · rw [withoutComments_cons hcomment]
      by_cases hspace : t.kind = .space
      · rw [skipSpace_space_cons hspace, ih, skipGaps, skipGaps,
          List.dropWhile_cons_of_pos (Token.isGap_of_space hspace)]
      · rw [skipSpace, List.dropWhile_cons_of_neg (by simpa using hspace), skipGaps,
          List.dropWhile_cons_of_neg (by simp [Token.isGap, hspace, hcomment]),
          withoutComments_cons hcomment]

theorem isDeclaration_withoutComments (property : Text) (ts : List Token) :
    isDeclaration property (withoutComments ts) = isDeclarationOf isValueOf property ts := by
  rw [isDeclaration, isDeclarationOf, skipSpace_withoutComments]
  cases hts : skipGaps ts with
  | nil => rfl
  | cons t rest =>
    obtain ⟨-, hcomment⟩ := Token.isGap_eq_false_iff.mp (isGap_of_skipGaps hts)
    rw [withoutComments_cons hcomment]
    split
    · next heq =>
      obtain ⟨rfl, rfl⟩ := List.cons.inj heq
      rfl
    · next hne =>
      obtain ⟨kind, text⟩ := t
      split
      · next heq =>
        cases heq
        exact absurd rfl (hne _ _)
      · rfl

/-- What the grammar takes for a value where there are declarations, and where there are none. -/
def checkedValues (declarations : Bool) : Option ValueCheck :=
  if declarations then some isValueOf else none

theorem isSome_checkedValues (declarations : Bool) :
    (checkedValues declarations).isSome = declarations := by
  cases declarations <;> rfl

theorem any_checkedValues (declarations : Bool) (property : Text) (ts : List Token) :
    (checkedValues declarations).any (isDeclarationOf · property ts) =
      (declarations && isDeclaration property (withoutComments ts)) := by
  rw [isDeclaration_withoutComments]
  cases declarations <;> rfl

theorem takeItem_withoutComments {declarations : Bool} {t : Token} (ht : t.kind ≠ .comment)
    (rest : List Token) :
    takeItem declarations t (withoutComments rest) =
      ((takeEntry (checkedValues declarations) t rest).1.item,
        withoutComments (takeEntry (checkedValues declarations) t rest).2) := by
  have hsemicolon (t : Token) (ht : t.kind = .comment) : t.isSemicolon = false := by
    simp [Token.isSemicolon, ht]
  have hstop (t : Token) (ht : t.kind = .comment) :
      ((declarations && t.isSemicolon) || t.opensBody) = false := by
    simp [Token.isSemicolon, Token.opensBody, ht]
  have hrule : takeRule declarations (t :: withoutComments rest) =
      ((takeRuleEntry declarations (t :: rest)).1.item,
        withoutComments (takeRuleEntry declarations (t :: rest)).2) := by
    have h := takeUntil_withoutComments hstop (t :: rest)
    rw [withoutComments_cons ht] at h
    simp only [takeRule, takeRuleEntry, h, Entry.item]
  cases hkind : t.kind with
  | atKeyword name => simp only [takeItem, takeEntry, hkind, takeAtRule_withoutComments, Entry.item]
  | ident property =>
    simp only [takeItem, takeEntry, hkind, spanTop_withoutComments hsemicolon,
      drop_one_withoutComments hsemicolon, any_checkedValues, isSome_checkedValues]
    split
    · rfl
    · exact hrule
  | _ =>
    simp only [takeItem, takeEntry, hkind, isSome_checkedValues]
    exact hrule

def itemStep (declarations : Bool) (_ : Unit) (ts : List Token) :
    Option (List Item × Unit × List Token) :=
  match ts.dropWhile Token.separates with
  | [] => none
  | t :: rest => some ([(takeItem declarations t rest).1], (), (takeItem declarations t rest).2)

theorem itemsFrom_eq (declarations : Bool) (fuel : Nat) (ts : List Token) :
    itemsFrom declarations fuel ts = pieces (itemStep declarations) fuel () ts := by
  induction fuel generalizing ts with
  | zero => rfl
  | succ fuel ih =>
    have hseparates : (fun t : Token => t.isGap || t.isSemicolon) = Token.separates := rfl
    simp only [itemsFrom, pieces, itemStep, hseparates]
    cases ts.dropWhile Token.separates with
    | nil => rfl
    | cons t rest => simp only [ih, List.singleton_append]

theorem itemStep_withoutComments (declarations behind : Bool) (ts : List Token) :
    itemStep declarations () (withoutComments ts) =
      (entryStep (checkedValues declarations) behind ts).map fun (found, _, rest) =>
        (found.map (·.2.item), (), withoutComments rest) := by
  simp only [itemStep, entryStep, dropWhile_withoutComments fun _ => Token.separates_of_isGap]
  cases hts : ts.dropWhile Token.separates with
  | nil => rfl
  | cons t rest =>
    have ht := not_comment_of_dropWhile (fun _ => Token.separates_of_isGap) hts
    rw [withoutComments_cons ht]
    simp only [takeItem_withoutComments ht]
    rfl

theorem length_takeItem_le (declarations : Bool) (t : Token) (rest : List Token) :
    (takeItem declarations t rest).2.length ≤ rest.length := by
  have hrule : (takeRule declarations (t :: rest)).2.length ≤ rest.length := by
    have h := length_takeUntil_le (fun t => (declarations && t.isSemicolon) || t.opensBody)
      (t :: rest)
    simpa [takeRule] using h
  simp only [takeItem]
  split
  · exact Nat.le_trans (length_takeAtRule_le rest) (Nat.sub_le _ _)
  · have hspan := length_spanTop_le Token.isSemicolon rest
    split
    · rw [List.length_drop]
      omega
    · exact hrule
  · exact hrule

theorem itemStep_lt (declarations : Bool) (u : Unit) (ts : List Token) (found : List Item)
    (u' : Unit) (rest : List Token) (h : itemStep declarations u ts = some (found, u', rest)) :
    rest.length < ts.length := by
  have hdrop : (ts.dropWhile Token.separates).length ≤ ts.length :=
    (List.dropWhile_suffix _).length_le
  simp only [itemStep] at h
  split at h
  · cases h
  · next t us heq =>
    cases h
    rw [heq, List.length_cons] at hdrop
    exact Nat.lt_of_le_of_lt (length_takeItem_le declarations t us) hdrop

/-- The items that the grammar sees are the entries. -/
theorem items_withoutComments (declarations : Bool) (ts : List Token) :
    items declarations (withoutComments ts) =
      (entries (checkedValues declarations) ts).map (·.2.item) := by
  rw [items, itemsFrom_eq, entries, entriesBehind,
    ← pieces_map (fun _ => ()) (itemStep_withoutComments declarations)]
  exact pieces_eq_of_le (itemStep_lt declarations) (Nat.le_refl _) (length_withoutComments_le ts)

/-- The entry is one that the grammar takes in a block of the given depth. -/
def Entry.FitsIn (depth : Nat) (inRule : Bool) : Entry → Prop
  | .declaration _ _ => True
  | .rule prelude block => isSelectorList inRule (withoutComments prelude) = true ∧
      (block.map withoutComments).any (isBodyFrom depth true) = true
  | .atRule name prelude block => isAtRule (isBodyFrom depth inRule) inRule name
      (withoutComments prelude) (block.map withoutComments) = true

theorem isBodyFrom_withoutComments_iff {depth : Nat} {inRule : Bool} {ts : List Token} :
    isBodyFrom (depth + 1) inRule (withoutComments ts) = true ↔
      ∀ e ∈ entries (checkedValues inRule) ts, e.2.FitsIn depth inRule := by
  rw [isBodyFrom, items_withoutComments, List.all_map, List.all_eq_true]
  refine forall₂_congr fun e _ => ?_
  obtain ⟨b, e⟩ := e
  cases e with
  | declaration _ _ => exact iff_of_true rfl trivial
  | rule prelude block => cases block <;> simp [Entry.item, Entry.FitsIn]
  | atRule _ _ _ => exact Iff.rfl

/-! ## Selectors -/

/-- No list of selectors begins with `<!--`, `-->` or a semicolon. -/
theorem not_isSelectorList_of_mark {t : Token} (ht : t.kind ∈ [.cdo, .cdc, .semicolon])
    (ts : List Token) : isSelectorList false (t :: ts) = false := by
  simp only [List.mem_cons, List.not_mem_nil, or_false] at ht
  have hselector (check : ArgumentCheck) (part : List Token) :
      (selector check .start (t :: part)).inForm = false := by
    obtain ⟨kind, text⟩ := t
    rcases ht with ht | ht | ht <;> obtain rfl := ht <;>
      simp [selector, selectorFrom, compound, skipSpace, Token.isDelim, typeName?, simples, simple]
  obtain ⟨part, parts, hparts⟩ : ∃ part parts, splitCommas (t :: ts) = (t :: part) :: parts := by
    have hcomma : t.isComma = false := by
      rcases ht with ht | ht | ht <;> simp [Token.isComma, ht]
    simp only [splitCommas, splitNested, hcomma, Bool.and_false, Bool.false_eq_true, ↓reduceIte]
    split
    · exact ⟨[], [], rfl⟩
    · exact ⟨_, _, rfl⟩
  simp only [isSelectorList, argumentCheck, hparts, List.map_cons, Finding.all, List.all_cons,
    hselector, Bool.false_and, Bool.false_eq_true, ↓reduceIte]

theorem isSelectorList_dropWhile_separates {ts : List Token}
    (h : isSelectorList false (withoutComments ts) = true) :
    isSelectorList false (withoutComments (ts.dropWhile Token.separates)) = true := by
  induction ts with
  | nil => exact h
  | cons t ts ih =>
    by_cases ht : t.separates = true
    · rw [List.dropWhile_cons_of_pos ht]
      refine ih ?_
      by_cases hcomment : t.kind = .comment
      · rwa [withoutComments_cons_of_comment hcomment] at h
      · rw [withoutComments_cons hcomment] at h
        by_cases hspace : t.kind = .space
        · rwa [isSelectorList_space_cons hspace] at h
        · have hsemicolon : t.kind = .semicolon := by
            simpa [Token.separates, Token.isGap, Token.isSemicolon, hcomment, hspace] using ht
          rw [not_isSelectorList_of_mark (by simp [hsemicolon])] at h
          cases h
    · rwa [List.dropWhile_cons_of_neg ht]

/-! ## Media -/

theorem isWord_congr {name name' : Text} (h : Text.sameIgnoringCase name name' = true)
    (words : List String) : isWord name words = isWord name' words := by
  simp only [isWord, Text.sameIgnoringCase, eq_of_beq h]

section Media
variable {name : Text} (hname : Text.sameIgnoringCase name "media".toList = true)
include hname

theorem isAtRule_media (rules : List Token → Bool) (inRule : Bool) (prelude : List Token)
    (block : Option (List Token)) :
    isAtRule rules inRule name prelude block = (isMediaList prelude && block.any rules) := by
  have hword : isWord name ["media"] = true := (isWord_congr hname _).trans (by decide)
  unfold isAtRule
  rw [if_pos hword]

theorem next?_media (stage : Stage) (prelude block : List Token) :
    stage.next? (.atRule name prelude (some block)) =
      if isMediaList prelude && isBody false block then some .body else none := by
  have hword (words : List String) (hwords : isWord "media".toList words = false) :
      ¬isWord name words = true :=
    Bool.eq_false_iff.mp ((isWord_congr hname words).trans hwords)
  rw [Stage.next?, if_neg (hword _ (by decide)), if_neg (hword _ (by decide)),
    if_neg (hword _ (by decide)), if_neg (hword _ (by decide)), isAtRule_media hname]
  rfl

end Media

/-! ## What an accepted text is made of -/

theorem exists_next?_of_areStatements {stage : Stage} {ss : List Statement}
    (h : areStatements stage ss = true) :
    ∀ s ∈ ss, ∃ stage : Stage, (stage.next? s).isSome = true := by
  induction ss generalizing stage with
  | nil => nofun
  | cons s ss ih =>
    rw [areStatements] at h
    cases hnext : stage.next? s with
    | none =>
      rw [hnext] at h
      cases h
    | some stage' =>
      rw [hnext] at h
      rw [List.forall_mem_cons]
      exact ⟨⟨stage, by rw [hnext]; rfl⟩, ih h⟩

/-- A rule that the grammar takes, or an at-rule that it takes if it is an `@media`. -/
def Entry.InForm : Entry → Prop
  | .rule prelude block => isSelectorList false (withoutComments prelude) = true ∧
      ∃ depth, (block.map withoutComments).any (isBodyFrom depth true) = true
  | .atRule name prelude (some block) => Text.sameIgnoringCase name "media".toList = true →
      isMediaList (withoutComments prelude) = true ∧
        ∃ depth, isBodyFrom depth false (withoutComments block) = true
  | _ => True

theorem inForm_of_next? {stage : Stage} {s : Statement}
    (h : (stage.next? s.withoutComments).isSome = true) : s.entry.InForm := by
  match s with
  | .qualified prelude block =>
    simp only [Statement.withoutComments, Stage.next?] at h
    split at h
    · next hrule =>
      obtain ⟨hselector, hblock⟩ := Bool.and_eq_true_iff.mp hrule
      refine ⟨isSelectorList_dropWhile_separates hselector, ?_⟩
      cases block with
      | none => cases hblock
      | some block => exact ⟨_, hblock⟩
    · cases h
  | .atRule name prelude (some block) =>
    intro hname
    simp only [Statement.withoutComments, Option.map_some, next?_media hname] at h
    split at h
    · next hmedia =>
      obtain ⟨hquery, hblock⟩ := Bool.and_eq_true_iff.mp hmedia
      exact ⟨hquery, _, hblock⟩
    · cases h
  | .atRule _ _ none => trivial

theorem inForm_of_mem_entries {depth : Nat} {ts : List Token}
    (h : isBodyFrom depth false (withoutComments ts) = true) : ∀ e ∈ entries none ts, e.2.InForm := by
  cases depth with
  | zero => cases h
  | succ depth =>
    intro e he
    have hentry := isBodyFrom_withoutComments_iff.mp h e he
    obtain ⟨b, e⟩ := e
    match e with
    | .rule prelude block => exact ⟨hentry.1, depth, hentry.2⟩
    | .atRule name prelude (some block) =>
      intro hname
      obtain ⟨hquery, hblock⟩ :=
        Bool.and_eq_true_iff.mp ((isAtRule_media hname _ _ _ _).symm.trans hentry)
      exact ⟨hquery, depth, hblock⟩
    | .atRule _ _ none => trivial
    | .declaration _ _ => trivial

/-- What stands in a text that the grammar accepts is in form. -/
theorem inForm_of_stands {css : Text} (h : accepts css = true) {e : Entry} (he : Stands css e) :
    e.InForm := by
  induction he with
  | top hs =>
    have hstatements : statements (withoutComments (lex css)) =
        (statements (lex css)).map Statement.withoutComments :=
      statementsBehind_withoutComments true (lex css)
    rw [accepts, hstatements] at h
    obtain ⟨stage, hnext⟩ := exists_next?_of_areStatements h _ (List.mem_map_of_mem hs)
    exact inForm_of_next? hnext
  | inside _ hname he ih =>
    obtain ⟨-, depth, hblock⟩ := ih hname
    exact inForm_of_mem_entries hblock _ he

theorem isWhole_of_isBodyFrom {depth : Nat} {ts : List Token}
    (h : isBodyFrom depth true (withoutComments ts) = true) :
    ∀ e ∈ entries (some isValueOf) ts, e.2.isWhole = true := by
  cases depth with
  | zero => cases h
  | succ depth =>
    intro e he
    have hentry := isBodyFrom_withoutComments_iff.mp h e he
    obtain ⟨b, e⟩ := e
    match e with
    | .rule _ (some _) => rfl
    | .rule _ none => cases hentry.2
    | .atRule _ _ _ => rfl
    | .declaration _ _ => rfl

/-! ## Rules with declarations -/

theorem isBodyFrom_of_takesRule {prelude block : List Token}
    (h : grammarParts.TakesRule prelude block) (depth : Nat) :
    isBodyFrom (depth + 1) true (withoutComments block) = true := by
  refine isBodyFrom_withoutComments_iff.mpr fun e he => ?_
  have hdeclaration := h.2 e he
  obtain ⟨b, e⟩ := e
  cases e with
  | declaration _ _ => trivial
  | rule _ _ => cases hdeclaration
  | atRule _ _ _ => cases hdeclaration

theorem isBody_of_takesRule {ts : List Token}
    (h : ∀ e ∈ entries none ts, ∃ prelude block, e.2 = .rule prelude (some block) ∧
      grammarParts.TakesRule prelude block) : isBody false (withoutComments ts) = true := by
  refine isBodyFrom_withoutComments_iff.mpr fun e he => ?_
  obtain ⟨prelude, block, heq, hrule⟩ := h e he
  -- a block with a rule in it has a token, and that is depth enough
  obtain ⟨depth, hdepth⟩ : ∃ depth, (withoutComments ts).length = depth + 1 := by
    refine Nat.exists_eq_succ_of_ne_zero fun hzero => ?_
    have hitems := items_withoutComments false ts
    rw [List.length_eq_zero_iff.mp hzero] at hitems
    rw [List.map_eq_nil_iff.mp hitems.symm] at he
    cases he
  rw [heq, hdepth]
  exact ⟨hrule.1, isBodyFrom_of_takesRule hrule depth⟩

theorem next?_of_takesStatement {s : Statement} (h : grammarParts.TakesStatement s) (stage : Stage) :
    stage.next? s.withoutComments = some .body := by
  match s with
  | .qualified prelude (some block) =>
    exact if_pos (Bool.and_eq_true_iff.mpr ⟨h.1, isBodyFrom_of_takesRule h _⟩)
  | .atRule name prelude (some block) =>
    obtain ⟨hname, hquery, hblock⟩ := h
    exact (next?_media hname stage _ _).trans
      (if_pos (Bool.and_eq_true_iff.mpr ⟨hquery, isBody_of_takesRule hblock⟩))

theorem areStatements_of_forall {ss : List Statement}
    (h : ∀ s ∈ ss, ∀ stage : Stage, stage.next? s = some .body) (stage : Stage) :
    areStatements stage ss = true := by
  induction ss generalizing stage with
  | nil => rfl
  | cons s ss ih =>
    rw [List.forall_mem_cons] at h
    rw [areStatements, h.1 stage]
    exact ih h.2 .body

end Css

open Css

namespace Validator

theorem grammar_sound : grammar.Sound grammarParts where
  selectors css h prelude block he _ := (inForm_of_stands (accepts_grammar_iff.mp h) he).1
  blocks css h prelude block he _ := by
    obtain ⟨-, depth, hblock⟩ := inForm_of_stands (accepts_grammar_iff.mp h) he
    exact isWhole_of_isBodyFrom hblock
  queries css h name prelude block he hname :=
    (inForm_of_stands (accepts_grammar_iff.mp h) he hname).1
  marks _ := not_isSelectorList_of_mark

theorem grammar_complete : grammar.Complete grammarParts := by
  intro css h
  have hstatements : statements (withoutComments (lex css)) =
      (statements (lex css)).map Statement.withoutComments :=
    statementsBehind_withoutComments true (lex css)
  rw [accepts_grammar_iff, accepts, hstatements]
  refine areStatements_of_forall (fun s hs stage => ?_) _
  obtain ⟨statement, hmem, rfl⟩ := List.mem_map.mp hs
  exact next?_of_takesStatement (h statement hmem) stage

theorem grammar_ignoresSpace : grammarParts.IgnoresSpace where
  selectors _ := isSelectorList_withoutOuterSpace
  queries _ := isMediaList_withoutOuterSpace
  values property _ _ hts hus hparts :=
    (isValueOf_eq property hts).trans (hparts ▸ (isValueOf_eq property hus).symm)

end Validator

end StyleRef

import StyleRef.Css.Grammar.Word
import StyleRef.Proofs.Pieces

/-
# Tokens without comments

The grammar looks at tokens without comments, the reader at all of them.  A
comment opens and closes no bracket and ends nothing, so it makes no difference
whether comments are left out before a list is cut or after it.
-/

namespace StyleRef

namespace Css

/-! ## Splitting -/

theorem withoutComments_cons_of_comment {t : Token} (h : t.kind = .comment) (ts : List Token) :
    withoutComments (t :: ts) = withoutComments ts :=
  List.filter_cons_of_neg (by simp [h])

theorem withoutComments_cons {t : Token} (h : t.kind ≠ .comment) (ts : List Token) :
    withoutComments (t :: ts) = t :: withoutComments ts :=
  List.filter_cons_of_pos (by simpa using h)

section Splitting
variable {stop : Token → Bool} (hstop : ∀ t : Token, t.kind = .comment → stop t = false)
include hstop

theorem spanNested_withoutComments (stack : List Bracket) (ts : List Token) :
    spanNested stop stack (withoutComments ts) =
      (withoutComments (spanNested stop stack ts).1,
        withoutComments (spanNested stop stack ts).2) := by
  induction ts generalizing stack with
  | nil => rfl
  | cons t ts ih =>
    by_cases ht : t.kind = .comment
    · rw [withoutComments_cons_of_comment ht, ih]
      simp only [spanNested, hstop t ht, Bool.and_false, Bool.false_eq_true, ↓reduceIte,
        nest_of_isGap (Token.isGap_of_comment ht), withoutComments_cons_of_comment ht]
    · rw [withoutComments_cons ht]
      simp only [spanNested]
      split
      · exact Prod.ext rfl (withoutComments_cons ht ts).symm
      · simp only [ih, withoutComments_cons ht]

theorem spanTop_withoutComments (ts : List Token) :
    spanTop stop (withoutComments ts) =
      (withoutComments (spanTop stop ts).1, withoutComments (spanTop stop ts).2) :=
  spanNested_withoutComments hstop [] ts

theorem kind_ne_comment {t : Token} {ts rest : List Token} (h : (spanTop stop ts).2 = t :: rest) :
    t.kind ≠ .comment := by
  intro hcomment
  have := spanTop_stop stop ts t (by rw [h]; rfl)
  rw [hstop t hcomment] at this
  cases this

theorem drop_one_withoutComments (ts : List Token) :
    (withoutComments (spanTop stop ts).2).drop 1 = withoutComments ((spanTop stop ts).2.drop 1) := by
  cases hrest : (spanTop stop ts).2 with
  | nil => rfl
  | cons t rest =>
    rw [withoutComments_cons (kind_ne_comment hstop hrest)]
    rfl

end Splitting

theorem takeBlock_withoutComments (b : Bracket) (ts : List Token) :
    takeBlock b (withoutComments ts) =
      (withoutComments (takeBlock b ts).1, withoutComments (takeBlock b ts).2) := by
  have hstop (t : Token) (ht : t.kind = .comment) : decide (t.closes? = some b) = false := by
    simp [Token.closes?, ht]
  simp only [takeBlock, spanTop_withoutComments hstop, drop_one_withoutComments hstop]

theorem takeUntil_withoutComments {stop : Token → Bool}
    (hstop : ∀ t : Token, t.kind = .comment → stop t = false) (ts : List Token) :
    takeUntil stop (withoutComments ts) =
      (withoutComments (takeUntil stop ts).1, (takeUntil stop ts).2.1.map withoutComments,
        withoutComments (takeUntil stop ts).2.2) := by
  have hspan := spanTop_withoutComments hstop ts
  have hne {t : Token} {rest : List Token} (h : (spanTop stop ts).2 = t :: rest) :
      t.kind ≠ .comment := kind_ne_comment hstop h
  simp only [takeUntil, hspan]
  generalize spanTop stop ts = x at hne
  obtain ⟨prelude, after⟩ := x
  cases after with
  | nil => rfl
  | cons t rest =>
    rw [withoutComments_cons (hne rfl)]
    simp only [takeBlock_withoutComments]
    split <;> rfl

theorem takeAtRule_withoutComments (ts : List Token) :
    takeAtRule (withoutComments ts) =
      (withoutComments (takeAtRule ts).1, (takeAtRule ts).2.1.map withoutComments,
        withoutComments (takeAtRule ts).2.2) :=
  takeUntil_withoutComments (fun t ht => by simp [Token.isSemicolon, Token.opensBody, ht]) ts

/-- Leaving out what includes comments. -/
theorem dropWhile_withoutComments {p : Token → Bool} (hp : ∀ t : Token, t.isGap = true → p t = true)
    (ts : List Token) :
    (withoutComments ts).dropWhile p = withoutComments (ts.dropWhile p) := by
  induction ts with
  | nil => rfl
  | cons t ts ih =>
    by_cases ht : t.kind = .comment
    · rw [withoutComments_cons_of_comment ht,
        List.dropWhile_cons_of_pos (hp t (Token.isGap_of_comment ht)), ih]
    · rw [withoutComments_cons ht]
      by_cases hpt : p t = true
      · rw [List.dropWhile_cons_of_pos hpt, List.dropWhile_cons_of_pos hpt, ih]
      · rw [List.dropWhile_cons_of_neg hpt, List.dropWhile_cons_of_neg hpt, withoutComments_cons ht]

/-- What is left does not begin with a comment. -/
theorem not_comment_of_dropWhile {p : Token → Bool} (hp : ∀ t : Token, t.isGap = true → p t = true)
    {ts rest : List Token} {t : Token} (h : ts.dropWhile p = t :: rest) : t.kind ≠ .comment := by
  intro hcomment
  have hnot := Text.not_of_dropWhile_eq_cons h
  rw [hp t (Token.isGap_of_comment hcomment)] at hnot
  cases hnot

/-! ## Statements -/

def Statement.withoutComments : Statement → Statement
  | .atRule name prelude block =>
    .atRule name (Css.withoutComments prelude) (block.map Css.withoutComments)
  | .qualified prelude block =>
    .qualified (Css.withoutComments prelude) (block.map Css.withoutComments)

theorem statementStep_withoutComments (fresh : Bool) (ts : List Token) :
    statementStep fresh (withoutComments ts) =
      (statementStep fresh ts).map fun (found, fresh, rest) =>
        (found.map Statement.withoutComments, fresh, withoutComments rest) := by
  have hbody (t : Token) (ht : t.kind = .comment) : t.opensBody = false := by
    simp [Token.opensBody, ht]
  simp only [statementStep, dropWhile_withoutComments fun _ => Token.isFiller_of_isGap]
  cases hts : ts.dropWhile Token.isFiller with
  | nil => rfl
  | cons t rest =>
    have ht := not_comment_of_dropWhile (fun _ => Token.isFiller_of_isGap) hts
    have hqualified := takeUntil_withoutComments hbody (t :: rest)
    rw [withoutComments_cons ht] at hqualified ⊢
    simp only [takeAtRule_withoutComments, hqualified]
    split
    · split <;> rfl
    · rfl

theorem length_withoutComments_le (ts : List Token) : (withoutComments ts).length ≤ ts.length :=
  List.length_filter_le _ ts

theorem statementsBehind_withoutComments (fresh : Bool) (ts : List Token) :
    statementsBehind fresh (withoutComments ts) =
      (statementsBehind fresh ts).map Statement.withoutComments := by
  simp only [statementsBehind, statementsFrom_eq]
  rw [← pieces_map id statementStep_withoutComments]
  exact pieces_eq_of_le statementStep_lt (Nat.le_refl _) (length_withoutComments_le ts)

end Css

end StyleRef

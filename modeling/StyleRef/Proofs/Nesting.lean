import Mathlib.Tactic.MkIffOfInductiveProp
import StyleRef.Css.Statement

/-
# Blocks in lists of tokens

Tokens *settle* when they close the brackets that they open and no others.
Where they do, nothing that stands behind them can change how they are split,
and they change nothing for what stands behind them: this is what lets the parts
of a list be looked at one by one (`Whole`).
-/

namespace StyleRef

namespace Css

/-! ## Settled tokens -/

/-- Whether the tokens close the brackets of the stack, the innermost first, and besides them just
those that they open themselves. -/
def settles : List Bracket → List Token → Bool
  | stack, [] => stack.isEmpty
  | stack, t :: ts =>
    match t.opens?, t.closes? with
    | none, some b => stack.head? = some b && settles (nest stack t) ts
    | _, _ => settles (nest stack t) ts

theorem settles_cons {stack : List Bracket} {t : Token} {ts : List Token} :
    settles stack (t :: ts) = true ↔
      (t.opens? = none → ∀ b ∈ t.closes?, stack.head? = some b) ∧
        settles (nest stack t) ts = true := by
  rw [settles]
  cases t.opens? with
  | some a => simp
  | none => cases t.closes? <;> simp

/-- A token that fits the inner brackets does not touch the outer ones. -/
theorem nest_append {stack : List Bracket} {t : Token}
    (h : t.opens? = none → ∀ b ∈ t.closes?, stack.head? = some b) (under : List Bracket) :
    nest (stack ++ under) t = nest stack t ++ under := by
  simp only [nest]
  cases hopen : t.opens? with
  | some a => rfl
  | none =>
    cases hclose : t.closes? with
    | none =>
      cases stack with
      | nil => cases under <;> simp
      | cons a stack => simp
    | some b =>
      have hhead := h hopen b hclose
      cases stack with
      | nil => cases hhead
      | cons a stack =>
        obtain rfl := Option.some.inj hhead
        simp

theorem foldl_nest_of_settles {stack : List Bracket} {ts : List Token}
    (h : settles stack ts = true) (under : List Bracket) :
    ts.foldl nest (stack ++ under) = under := by
  induction ts generalizing stack with
  | nil =>
    obtain rfl := List.isEmpty_iff.mp h
    rfl
  | cons t ts ih =>
    obtain ⟨hfit, h⟩ := settles_cons.mp h
    rw [List.foldl_cons, nest_append hfit]
    exact ih h

theorem settles_append {stack : List Bracket} {ts : List Token} (h : settles stack ts = true)
    (under : List Bracket) (us : List Token) :
    settles (stack ++ under) (ts ++ us) = settles under us := by
  induction ts generalizing stack with
  | nil =>
    obtain rfl := List.isEmpty_iff.mp h
    rfl
  | cons t ts ih =>
    obtain ⟨hfit, h⟩ := settles_cons.mp h
    have hhead : t.opens? = none → ∀ b ∈ t.closes?, (stack ++ under).head? = some b := by
      intro hopen b hb
      have := hfit hopen b hb
      rw [List.head?_append, this]
      rfl
    rw [Bool.eq_iff_iff, List.cons_append, settles_cons, nest_append hfit, ih h]
    exact ⟨fun h => h.2, fun h => ⟨hhead, h⟩⟩

/-! ## Splitting in parts -/

variable {stop : Token → Bool}

/-- What does not stop a split is passed over, and the split goes on behind it. -/
theorem spanNested_of_passed {stack : List Bracket} {ts : List Token}
    (h : spanNested stop stack ts = (ts, [])) (us : List Token) :
    spanNested stop stack (ts ++ us) =
      (ts ++ (spanNested stop (ts.foldl nest stack) us).1,
        (spanNested stop (ts.foldl nest stack) us).2) := by
  induction ts generalizing stack with
  | nil => rfl
  | cons t ts ih =>
    simp only [spanNested, List.cons_append] at h ⊢
    by_cases hstop : (stack.isEmpty && stop t) = true
    · simp [hstop] at h
    · simp only [hstop, Bool.false_eq_true, ↓reduceIte, Prod.mk.injEq, List.cons.injEq,
        true_and] at h ⊢
      rw [ih (Prod.ext h.1 h.2)]
      exact ⟨rfl, rfl⟩

/-- Settled tokens outside all of whose blocks nothing stops a split. -/
@[mk_iff]
structure Whole (stop : Token → Bool) (ts : List Token) : Prop where
  settles : settles [] ts = true
  span : spanTop stop ts = (ts, [])

instance (stop : Token → Bool) (ts : List Token) : Decidable (Whole stop ts) :=
  decidable_of_iff _ (whole_iff stop ts).symm

namespace Whole

/-- A split passes over whole tokens. -/
theorem spanTop_append {ts : List Token} (h : Whole stop ts) (us : List Token) :
    spanTop stop (ts ++ us) = (ts ++ (spanTop stop us).1, (spanTop stop us).2) := by
  have hnest : ts.foldl nest [] = [] := by simpa using foldl_nest_of_settles h.settles []
  rw [spanTop, spanNested_of_passed h.span, hnest]
  rfl

theorem append {ts us : List Token} (hts : Whole stop ts) (hus : Whole stop us) :
    Whole stop (ts ++ us) := by
  refine ⟨?_, ?_⟩
  · exact (settles_append hts.settles [] us).trans hus.settles
  · rw [hts.spanTop_append, hus.span]

theorem single {t : Token} (hopen : t.opens? = none) (hclose : t.closes? = none)
    (hstop : stop t = false) : Whole stop [t] := by
  refine ⟨?_, ?_⟩
  · simp [Css.settles, hopen, hclose, nest]
  · simp [spanTop, spanNested, hstop]

theorem of_forall {ts : List Token} (h : Css.settles [] ts = true)
    (hstop : ∀ t ∈ ts, stop t = false) : Whole stop ts := by
  refine ⟨h, ?_⟩
  rw [spanTop]
  generalize ([] : List Bracket) = stack
  clear h
  induction ts generalizing stack with
  | nil => rfl
  | cons t ts ih =>
    have ih := ih fun u hu => hstop u (List.mem_cons_of_mem t hu)
    simp only [spanNested, hstop t (by simp), Bool.and_false, Bool.false_eq_true, ↓reduceIte, ih]

end Whole

theorem opens?_of_closes? {t : Token} {b : Bracket} (h : t.closes? = some b) :
    t.opens? = none := by
  obtain ⟨k, s⟩ := t
  cases k <;> simp_all [Token.closes?, Token.opens?]

/-- Settled tokens close no bracket outside all their blocks. -/
theorem whole_closes {ts : List Token} (h : settles [] ts = true) (b : Bracket) :
    Whole (fun t => t.closes? = some b) ts := by
  refine ⟨h, ?_⟩
  rw [spanTop]
  generalize ([] : List Bracket) = stack at h
  induction ts generalizing stack with
  | nil => rfl
  | cons t ts ih =>
    obtain ⟨hfit, h⟩ := settles_cons.mp h
    have hstop : ¬(stack.isEmpty && decide (t.closes? = some b)) = true := by
      simp only [Bool.and_eq_true, List.isEmpty_iff, decide_eq_true_eq]
      rintro ⟨rfl, hclose⟩
      cases hfit (opens?_of_closes? hclose) b hclose
    simp only [spanNested, hstop, Bool.false_eq_true, ↓reduceIte, ih _ h]

theorem takeBlock_of_settles {b : Bracket} {inside : List Token} (h : settles [] inside = true)
    {u : Token} (hclose : u.closes? = some b) (after : List Token) :
    takeBlock b (inside ++ u :: after) = (inside, after) := by
  have hstop : spanTop (fun t => t.closes? = some b) (u :: after) = ([], u :: after) :=
    spanTop_cons_of_pos (by simpa using hclose) after
  simp only [takeBlock, (whole_closes h b).spanTop_append, hstop, List.append_nil, List.drop_one,
    List.tail_cons]

theorem takeUntil_block {prelude inside : List Token} (hprelude : Whole stop prelude) {t u : Token}
    (hopen : t.opensBody = true) (hstop : stop t = true) (hinside : settles [] inside = true)
    (hclose : u.closes? = some .curly) (after : List Token) :
    takeUntil stop (prelude ++ t :: (inside ++ u :: after)) = (prelude, some inside, after) := by
  simp only [takeUntil, hprelude.spanTop_append, spanTop_cons_of_pos hstop, List.append_nil, hopen,
    ↓reduceIte, takeBlock_of_settles hinside hclose]

/-! ## Passing over -/

/-- Where fewer tokens stop a split, it goes on from where it stopped before. -/
theorem spanNested_of_imp {stop' : Token → Bool} (himp : ∀ t, stop' t = true → stop t = true)
    (stack : List Bracket) (ts : List Token) :
    (spanNested stop' stack ts).2 = (spanTop stop' (spanNested stop stack ts).2).2 := by
  induction ts generalizing stack with
  | nil => rfl
  | cons t ts ih =>
    by_cases hstop : (stack.isEmpty && stop t) = true
    · rw [Bool.and_eq_true, List.isEmpty_iff] at hstop
      obtain ⟨rfl, hstop⟩ := hstop
      simp [spanNested, hstop, spanTop]
    · have hstop' : ¬(stack.isEmpty && stop' t) = true := by
        rw [Bool.and_eq_true] at hstop ⊢
        exact fun h => hstop ⟨h.1, himp t h.2⟩
      simp only [spanNested, hstop, hstop', Bool.false_eq_true, ↓reduceIte, ih]

theorem spanTop_of_imp {stop' : Token → Bool} (himp : ∀ t, stop' t = true → stop t = true)
    (ts : List Token) : (spanTop stop' ts).2 = (spanTop stop' (spanTop stop ts).2).2 :=
  spanNested_of_imp himp [] ts

/-- Inside a block a split goes on to the end of the block, and from there. -/
theorem spanNested_block (b : Bracket) (inner stack : List Bracket) (ts : List Token) :
    (spanNested stop (inner ++ b :: stack) ts).2 =
      (spanNested stop stack ((spanNested (fun t => t.closes? = some b) inner ts).2.drop 1)).2 := by
  induction ts generalizing inner with
  | nil => rfl
  | cons t ts ih =>
    have hopen : (inner ++ b :: stack).isEmpty = false := by cases inner <;> rfl
    by_cases hclose : (inner.isEmpty && decide (t.closes? = some b)) = true
    · rw [Bool.and_eq_true, List.isEmpty_iff, decide_eq_true_eq] at hclose
      obtain ⟨rfl, hclose⟩ := hclose
      have hnest : nest (b :: stack) t = stack := by
        simp [nest, opens?_of_closes? hclose, hclose]
      simp [spanNested, hclose, hnest]
    · have hnest : nest (inner ++ b :: stack) t = nest inner t ++ b :: stack := by
        cases inner with
        | nil =>
          have hother : t.closes? ≠ some b := by simpa using hclose
          simp only [nest, List.nil_append]
          cases t.opens? <;> simp [hother]
        | cons a inner =>
          simp only [nest, List.cons_append]
          cases t.opens? with
          | some c => rfl
          | none => by_cases ha : t.closes? = some a <;> simp [ha]
      simp only [spanNested, hopen, hclose, Bool.false_and, Bool.false_eq_true, ↓reduceIte, hnest, ih]

theorem spanTop_block {t : Token} (hopen : t.opensBody = true) (hstop : stop t = false)
    (ts : List Token) : (spanTop stop (t :: ts)).2 = (spanTop stop (takeBlock .curly ts).2).2 := by
  have hnest : nest [] t = [] ++ .curly :: [] := by
    simp [nest, Token.opens?, of_decide_eq_true hopen]
  simp only [spanTop, spanNested, hstop, Bool.and_false, Bool.false_eq_true, ↓reduceIte, hnest,
    spanNested_block, takeBlock]

/-- A token that holds up no split belongs to the prelude. -/
theorem takeUntil_cons {t : Token} (hopen : t.opens? = none) (hstop : stop t = false)
    (ts : List Token) :
    takeUntil stop (t :: ts) = (t :: (takeUntil stop ts).1, (takeUntil stop ts).2) := by
  simp only [takeUntil, spanTop_cons_of_neg hopen hstop]
  generalize spanTop stop ts = x
  obtain ⟨prelude, after⟩ := x
  cases after with
  | nil => rfl
  | cons u rest =>
    simp only
    split <;> rfl

/-- Where only a block ends a prelude, nothing follows one without a block. -/
theorem takeUntil_eq_nil_of_block {ts : List Token} (h : (takeUntil Token.opensBody ts).2.1 = none) :
    (takeUntil Token.opensBody ts).2.2 = [] := by
  have hhead := spanTop_stop Token.opensBody ts
  simp only [takeUntil] at h ⊢
  generalize spanTop Token.opensBody ts = x at h hhead
  obtain ⟨prelude, after⟩ := x
  cases after with
  | nil => rfl
  | cons t rest =>
    simp only [hhead t rfl, ↓reduceIte] at h
    cases h

theorem takeUntil_fst (ts : List Token) : (takeUntil stop ts).1 = (spanTop stop ts).1 := by
  rw [takeUntil]
  split
  · next heq => rw [heq]
  · next heq =>
    rw [heq]
    split <;> rfl

/-- A split at semicolons behind a rule or an at-rule: behind its block, or behind the semicolon that
ends it. -/
theorem spanTop_takeUntil {stop : Token → Bool}
    (hstop : ∀ t, stop t = (t.isSemicolon || t.opensBody)) (ts : List Token) :
    (spanTop Token.isSemicolon ts).2.drop 1 =
      if (takeUntil stop ts).2.1.isSome then
        (spanTop Token.isSemicolon (takeUntil stop ts).2.2).2.drop 1
      else (takeUntil stop ts).2.2 := by
  have himp (t : Token) (ht : t.isSemicolon = true) : stop t = true := by simp [hstop, ht]
  have hgo := spanTop_of_imp himp ts
  have hhead := spanTop_stop stop ts
  rw [hgo, takeUntil]
  generalize spanTop stop ts = x at hhead
  obtain ⟨prelude, after⟩ := x
  cases after with
  | nil => rfl
  | cons t rest =>
    have ht := hhead t rfl
    rw [hstop, Bool.or_eq_true] at ht
    by_cases hopen : t.opensBody = true
    · have hsemicolon : t.isSemicolon = false := by
        simp [Token.isSemicolon, of_decide_eq_true hopen]
      simp only [hopen, ↓reduceIte, Option.isSome_some, spanTop_block hopen hsemicolon]
    · have hsemicolon : t.isSemicolon = true := by simpa [hopen] using ht
      simp [hopen, spanTop_cons_of_pos hsemicolon]

end Css

end StyleRef

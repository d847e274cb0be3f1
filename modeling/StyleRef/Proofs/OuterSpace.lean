import StyleRef.Css.Grammar.Word
import StyleRef.Proofs.Nesting

/-
# White space around a piece

A piece of a text has other white space around it when it is written again than
it had when it was read.  White space opens and closes no bracket and ends no
piece, so a function of the grammar that does not change with one more token of
white space at either end takes the piece as it took it before
(`apply_withoutOuterSpace`).
-/

namespace StyleRef

namespace Css

section Space
variable {t : Token} (ht : t.kind = .space)
include ht

/-! ## Settled tokens -/

theorem settles_space_cons (stack : List Bracket) (ts : List Token) :
    settles stack (t :: ts) = settles stack ts := by
  simp [settles, Token.opens?, Token.closes?, ht, nest_of_isGap (Token.isGap_of_space ht)]

theorem settles_append_space (stack : List Bracket) (ts : List Token) :
    settles stack (ts ++ [t]) = settles stack ts := by
  induction ts generalizing stack with
  | nil => exact settles_space_cons ht stack []
  | cons u ts ih =>
    simp only [List.cons_append, settles, ih]

/-! ## Pieces -/

theorem skipSpace_space_cons (ts : List Token) : skipSpace (t :: ts) = skipSpace ts :=
  List.dropWhile_cons_of_pos (by simp [ht])

theorem skipSpace_append_space (ts : List Token) :
    skipSpace (ts ++ [t]) = if skipSpace ts = [] then [] else skipSpace ts ++ [t] := by
  induction ts with
  | nil => simp [skipSpace, ht]
  | cons u ts ih =>
    by_cases hu : u.kind = .space
    · rw [List.cons_append, skipSpace_space_cons hu, ih, skipSpace_space_cons hu]
    · simp [skipSpace, hu]

theorem isDone_append_space (ts : List Token) : isDone (ts ++ [t]) = isDone ts := by
  simp [isDone, ht]

theorem isSingle_space_cons (p : Token → Bool) (ts : List Token) :
    isSingle p (t :: ts) = isSingle p ts := by
  rw [isSingle, skipSpace_space_cons ht, isSingle]

theorem isSingle_append_space (p : Token → Bool) (ts : List Token) :
    isSingle p (ts ++ [t]) = isSingle p ts := by
  rw [isSingle, skipSpace_append_space ht, isSingle]
  cases skipSpace ts with
  | nil => rfl
  | cons u rest => simp [isDone_append_space ht]

end Space

/-! ## Blocks -/

/-- Where the tokens close a bracket that is open, the block ends. -/
theorem exists_of_settles {stack under : List Bracket} {b : Bracket} {ts : List Token}
    (h : settles (stack ++ b :: under) ts = true) :
    ∃ inside u after, ts = inside ++ u :: after ∧ u.closes? = some b ∧
      settles stack inside = true ∧ settles under after = true := by
  induction ts generalizing stack with
  | nil => cases stack <;> cases h
  | cons t ts ih =>
    obtain ⟨hfit, h⟩ := settles_cons.mp h
    by_cases hclose : stack = [] ∧ t.closes? = some b
    · obtain ⟨rfl, hclose⟩ := hclose
      have hnest : nest (b :: under) t = under := by
        simp [nest, opens?_of_closes? hclose, hclose]
      exact ⟨[], t, ts, rfl, hclose, rfl, by rwa [List.nil_append, hnest] at h⟩
    · have hinner : t.opens? = none → ∀ a ∈ t.closes?, stack.head? = some a := by
        intro hopen a ha
        cases stack with
        | nil =>
          have : b = a := by simpa using hfit hopen a ha
          exact absurd ⟨rfl, this ▸ ha⟩ hclose
        | cons c stack => simpa using hfit hopen a ha
      rw [nest_append hinner] at h
      obtain ⟨inside, u, after, rfl, hu, hinside, hafter⟩ := ih h
      exact ⟨t :: inside, u, after, rfl, hu, settles_cons.mpr ⟨hinner, hinside⟩, hafter⟩

theorem settles_of_cons {t : Token} {ts : List Token} (hopen : t.opens? = none)
    (h : settles [] (t :: ts) = true) : settles [] ts = true := by
  exact nest_of_opens?_eq_none hopen ▸ (settles_cons.mp h).2

/-- Behind the token that opens a block, the block is open. -/
theorem settles_block_of_cons {b : Bracket} {t : Token} {ts : List Token} (hopen : t.opens? = some b)
    (h : settles [] (t :: ts) = true) : settles [b] ts = true := by
  have hnest : nest [] t = [b] := by simp [nest, hopen]
  exact hnest ▸ (settles_cons.mp h).2

section Blocks
variable {b : Bracket} {ts : List Token} (h : settles [b] ts = true)
include h

theorem settles_takeBlock :
    settles [] (takeBlock b ts).1 = true ∧ settles [] (takeBlock b ts).2 = true := by
  obtain ⟨inside, u, after, rfl, hu, hinside, hafter⟩ :=
    exists_of_settles (show settles ([] ++ [b]) ts = true from h)
  rw [takeBlock_of_settles hinside hu]
  exact ⟨hinside, hafter⟩

theorem takeBlock_append_of_settles (us : List Token) :
    takeBlock b (ts ++ us) = ((takeBlock b ts).1, (takeBlock b ts).2 ++ us) := by
  obtain ⟨inside, u, after, rfl, hu, hinside, hafter⟩ :=
    exists_of_settles (show settles ([] ++ [b]) ts = true from h)
  rw [List.append_assoc, List.cons_append, takeBlock_of_settles hinside hu,
    takeBlock_of_settles hinside hu]

end Blocks

theorem all_congr_of_mem {α : Type} {p q : α → Bool} {l : List α} (h : ∀ a ∈ l, p a = q a) :
    l.all p = l.all q := by
  rw [Bool.eq_iff_iff, List.all_eq_true, List.all_eq_true]
  exact forall₂_congr fun a ha => by rw [h a ha]

theorem length_takeBlock_le (b : Bracket) (ts : List Token) :
    (takeBlock b ts).1.length ≤ ts.length ∧ (takeBlock b ts).2.length ≤ ts.length := by
  obtain ⟨close, h⟩ := takeBlock_append b ts
  have := congrArg List.length h
  simp only [List.length_append] at this
  omega

theorem length_skipSpace_le (ts : List Token) : (skipSpace ts).length ≤ ts.length :=
  (List.dropWhile_suffix _).length_le

/-! ## Parts -/

theorem splitNested_ne_nil (sep : Token → Bool) (stack : List Bracket) (ts : List Token) :
    splitNested sep stack ts ≠ [] := by
  cases ts with
  | nil => simp [splitNested]
  | cons t ts =>
    rw [splitNested]
    split
    · simp
    · split <;> simp

section Parts
variable {sep : Token → Bool} {t : Token} (ht : t.kind = .space) (hsep : sep t = false)
include hsep

include ht in
theorem splitNested_space_cons (ts : List Token) :
    ∃ part parts, splitNested sep [] ts = part :: parts ∧
      splitNested sep [] (t :: ts) = (t :: part) :: parts := by
  obtain ⟨part, parts, hparts⟩ := List.exists_cons_of_ne_nil (splitNested_ne_nil sep [] ts)
  exact ⟨part, parts, hparts, by
    simp [splitNested, hsep, nest_of_isGap (Token.isGap_of_space ht), hparts]⟩

/-- White space at the end belongs to the last part, which settles its brackets if all tokens do. -/
theorem splitNested_append_space (hopen : ∀ u, sep u = true → u.opens? = none)
    {stack : List Bracket} {ts : List Token} (hts : settles stack ts = true) :
    ∃ parts last, splitNested sep stack ts = parts ++ [last] ∧
      splitNested sep stack (ts ++ [t]) = parts ++ [last ++ [t]] ∧
        (last <:+ ts ∧ (parts = [] → last = ts)) ∧
          settles (if parts = [] then stack else []) last = true := by
  induction ts generalizing stack with
  | nil =>
    refine ⟨[], [], rfl, ?_, ⟨List.suffix_rfl, fun _ => rfl⟩, hts⟩
    simp [splitNested, hsep]
  | cons u ts ih =>
    obtain ⟨hfit, hsettled⟩ := settles_cons.mp hts
    rw [List.cons_append, splitNested, splitNested]
    by_cases hstop : (stack.isEmpty && sep u) = true
    · obtain ⟨hempty, hu⟩ := Bool.and_eq_true_iff.mp hstop
      obtain rfl := List.isEmpty_iff.mp hempty
      have hnest := nest_of_opens?_eq_none (hopen u hu)
      rw [hnest] at hsettled
      obtain ⟨parts, last, hparts, hspace, ⟨hlast, hall⟩, hsettles⟩ := ih hsettled
      rw [if_pos hstop, if_pos hstop, hparts, hspace]
      exact ⟨[] :: parts, last, rfl, rfl, ⟨hlast.trans (List.suffix_cons u ts), by simp⟩,
        by simpa using hsettles⟩
    · obtain ⟨parts, last, hparts, hspace, ⟨hlast, hall⟩, hsettles⟩ := ih hsettled
      rw [if_neg hstop, if_neg hstop, hparts, hspace]
      cases parts with
      | nil =>
        obtain rfl := hall rfl
        exact ⟨[], u :: last, rfl, rfl, ⟨List.suffix_rfl, fun _ => rfl⟩, hts⟩
      | cons part parts =>
        exact ⟨(u :: part) :: parts, last, rfl, rfl,
          ⟨hlast.trans (List.suffix_cons u ts), by simp⟩, by simpa using hsettles⟩

end Parts

/-! ## Tokens without what is around them -/

/-- Around the tokens there is white space only. -/
theorem exists_outerSpace (ts : List Token) :
    ∃ a b : List Token, (∀ t ∈ a, t.kind = .space) ∧ (∀ t ∈ b, t.kind = .space) ∧
      ts = a ++ (withoutOuterSpace ts ++ b) := by
  have hall (us : List Token) : ∀ t ∈ us.takeWhile fun t => decide (t.kind = .space),
      t.kind = .space := fun t ht => of_decide_eq_true (List.all_eq_true.mp List.all_takeWhile t ht)
  refine ⟨ts.takeWhile (fun t => decide (t.kind = .space)),
    ((skipSpace ts).reverse.takeWhile (fun t => decide (t.kind = .space))).reverse, hall ts,
    fun t ht => hall _ t (List.mem_reverse.mp ht), ?_⟩
  have hend : withoutOuterSpace ts ++
      ((skipSpace ts).reverse.takeWhile (fun t => decide (t.kind = .space))).reverse =
        skipSpace ts := by
    rw [withoutOuterSpace, ← List.reverse_append, skipSpace, skipSpace,
      List.takeWhile_append_dropWhile, List.reverse_reverse]
  rw [hend]
  exact List.takeWhile_append_dropWhile.symm

theorem settles_append_spaces {b : List Token} (hb : ∀ t ∈ b, t.kind = .space)
    (stack : List Bracket) (ts : List Token) : settles stack (ts ++ b) = settles stack ts := by
  induction b generalizing ts with
  | nil => rw [List.append_nil]
  | cons t b ih =>
    rw [List.append_cons, ih fun u hu => hb u (List.mem_cons_of_mem t hu),
      settles_append_space (hb t (by simp))]

theorem settles_spaces_append {a : List Token} (ha : ∀ t ∈ a, t.kind = .space)
    (stack : List Bracket) (ts : List Token) : settles stack (a ++ ts) = settles stack ts := by
  induction a with
  | nil => rfl
  | cons t a ih =>
    rw [List.cons_append, settles_space_cons (ha t (by simp)),
      ih fun u hu => ha u (List.mem_cons_of_mem t hu)]

theorem settles_skipSpace (stack : List Bracket) (ts : List Token) :
    settles stack (skipSpace ts) = settles stack ts := by
  have hspaces : ∀ t ∈ ts.takeWhile (fun t => decide (t.kind = .space)), t.kind = .space :=
    fun t ht => of_decide_eq_true (List.all_eq_true.mp List.all_takeWhile t ht)
  have h := congrArg (settles stack)
    (List.takeWhile_append_dropWhile (p := fun t => decide (t.kind = .space)) (l := ts))
  rw [settles_spaces_append hspaces] at h
  exact h

theorem settles_withoutOuterSpace (stack : List Bracket) (ts : List Token) :
    settles stack (withoutOuterSpace ts) = settles stack ts := by
  obtain ⟨a, b, ha, hb, heq⟩ := exists_outerSpace ts
  have h := congrArg (settles stack) heq
  rw [settles_spaces_append ha, settles_append_spaces hb] at h
  exact h.symm

/-- What does not change with white space at either end is the same for the tokens without it.  At
the end there may be a condition on what the white space follows, if white space fulfils it. -/
theorem apply_withoutOuterSpace {α : Type} {f : List Token → α} {p : List Token → Prop}
    (hfront : ∀ t ts, t.kind = .space → f (t :: ts) = f ts)
    (hback : ∀ t ts, t.kind = .space → settles [] ts = true → p ts → f (ts ++ [t]) = f ts)
    (hspace : ∀ t ts, t.kind = .space → p (ts ++ [t])) {ts : List Token}
    (hp : p (withoutOuterSpace ts)) (hts : settles [] ts = true) :
    f ts = f (withoutOuterSpace ts) := by
  obtain ⟨a, b, ha, hb, heq⟩ := exists_outerSpace ts
  rw [← settles_withoutOuterSpace] at hts
  generalize withoutOuterSpace ts = core at hp heq hts
  subst heq
  have hbehind : f (core ++ b) = f core := by
    induction b generalizing core with
    | nil => rw [List.append_nil]
    | cons t b ih =>
      have ht := hb t (by simp)
      rw [List.append_cons, ih (fun u hu => hb u (List.mem_cons_of_mem t hu)) _ (hspace t core ht)
        (by rwa [settles_append_space ht]), hback t core ht hts hp]
  rw [← hbehind]
  induction a with
  | nil => rfl
  | cons t a ih =>
    rw [List.cons_append, hfront t _ (ha t (by simp)), ih fun u hu => ha u (List.mem_cons_of_mem t hu)]

/-! ## Selectors and values -/

/-- The bar of a namespace does not come last. -/
def NoBar (ts : List Token) : Prop := ∀ u ∈ ts.getLast?, u.isDelim '|' = false

instance (ts : List Token) : Decidable (NoBar ts) :=
  inferInstanceAs (Decidable (∀ u ∈ ts.getLast?, u.isDelim '|' = false))

def withoutSpace (ts : List Token) : List Token := ts.filter fun t => t.kind ≠ .space

/-- What stops the part of a declaration that is the value in the narrow sense. -/
def endsValue (property : Text) (t : Token) : Bool :=
  t.isDelim '!' || (!isDashed property && t.opensBody)

/-- A value without the white space around it, and its annotation without white space. -/
def valueParts (property : Text) (ts : List Token) : List Token × List Token :=
  (withoutOuterSpace (spanTop (endsValue property) ts).1,
    withoutSpace (spanTop (endsValue property) ts).2)

theorem settles_spanNested {stop : Token → Bool} {stack : List Bracket} {ts : List Token}
    (h : settles stack ts = true) : settles stack (spanNested stop stack ts).1 = true := by
  induction ts generalizing stack with
  | nil => exact h
  | cons t ts ih =>
    rw [spanNested]
    split
    · next hstop => exact (Bool.and_eq_true_iff.mp hstop).1
    · obtain ⟨hfit, h⟩ := settles_cons.mp h
      exact settles_cons.mpr ⟨hfit, ih h⟩

theorem settles_withoutSpace (stack : List Bracket) (ts : List Token) :
    settles stack (withoutSpace ts) = settles stack ts := by
  induction ts generalizing stack with
  | nil => rfl
  | cons t ts ih =>
    by_cases ht : t.kind = .space
    · rw [withoutSpace, List.filter_cons_of_neg (by simp [ht]), ← withoutSpace, ih,
        settles_space_cons ht]
    · rw [withoutSpace, List.filter_cons_of_pos (by simp [ht]), ← withoutSpace]
      simp only [settles, ih]

/-- Tokens that have the same value and annotation in them settle their brackets together. -/
theorem settles_of_valueParts {property : Text} {ts us : List Token} (hus : settles [] us = true)
    (h : valueParts property us = valueParts property ts) : settles [] ts = true := by
  have hvalue : settles [] (spanTop (endsValue property) us).1 = true := settles_spanNested hus
  have hrest : settles [] (spanTop (endsValue property) us).2 = true := by
    rw [← spanTop_append (endsValue property) us] at hus
    exact (settles_append hvalue [] _).symm.trans hus
  have hvalue' := congrArg (fun x => settles [] x.1) h
  have hrest' := congrArg (fun x => settles [] x.2) h
  simp only [valueParts, settles_withoutOuterSpace, settles_withoutSpace] at hvalue' hrest'
  rw [← spanTop_append (endsValue property) ts]
  exact (settles_append (hvalue'.symm.trans hvalue) [] _).trans (hrest'.symm.trans hrest)

end Css

end StyleRef

import StyleRef.Sheet.Reader

/-
# Lists that are read piece by piece

The readers of lists take a piece, and go on with what is left, as long as the
fuel lasts.  A piece takes a token at least, so a list has fuel enough in its
length, and more makes no difference: a list is its first piece and then the
rest (`pieces_length`).  The statements of a list of rules and the declarations
of a block are read in this way.
-/

namespace StyleRef

namespace Css

section Pieces
variable {σ α : Type}

/-- Reads a list piece by piece.  A step yields what a piece comes to, the state behind it and what
is left of the list, or nothing at the end. -/
def pieces (step : σ → List Token → Option (List α × σ × List Token)) :
    Nat → σ → List Token → List α
  | 0, _, _ => []
  | fuel + 1, s, ts =>
    match step s ts with
    | none => []
    | some (found, s, rest) => found ++ pieces step fuel s rest

/-- What is done to a list before it is read is done to what is found. -/
theorem pieces_map {τ β : Type} {step : σ → List Token → Option (List α × σ × List Token)}
    {step' : τ → List Token → Option (List β × τ × List Token)} (state : σ → τ)
    {f : List Token → List Token} {g : α → β}
    (h : ∀ s ts, step' (state s) (f ts) =
      (step s ts).map fun (found, s, rest) => (found.map g, state s, f rest))
    (fuel : Nat) (s : σ) (ts : List Token) :
    pieces step' fuel (state s) (f ts) = (pieces step fuel s ts).map g := by
  induction fuel generalizing s ts with
  | zero => rfl
  | succ fuel ih =>
    rw [pieces, pieces, h]
    cases step s ts with
    | none => rfl
    | some x => simp only [Option.map_some, ih, List.map_append]

/-- What a list holds was found at the front of what a piece before it left, and of this all is true
that a step keeps true of what is left. -/
theorem exists_kept_of_mem {step : σ → List Token → Option (List α × σ × List Token)}
    {P : List Token → Prop}
    (hkeep : ∀ s ts found s' rest, step s ts = some (found, s', rest) → P ts → P rest)
    {fuel : Nat} {s : σ} {ts : List Token} (hts : P ts) {a : α} (ha : a ∈ pieces step fuel s ts) :
    ∃ s₁ us found s₂ rest, step s₁ us = some (found, s₂, rest) ∧ a ∈ found ∧ P us := by
  induction fuel generalizing s ts with
  | zero => cases ha
  | succ fuel ih =>
    rw [pieces] at ha
    cases h : step s ts with
    | none =>
      rw [h] at ha
      cases ha
    | some x =>
      obtain ⟨found, s', rest⟩ := x
      rw [h] at ha
      rcases List.mem_append.mp ha with ha | ha
      · exact ⟨s, ts, found, s', rest, h, ha, hts⟩
      · exact ih (hkeep s ts found s' rest h hts) ha

/-- Where every piece is taken off the front, it was found at the front of an end of the list. -/
theorem exists_suffix_of_mem {step : σ → List Token → Option (List α × σ × List Token)}
    (hsuffix : ∀ s ts found s' rest, step s ts = some (found, s', rest) → rest <:+ ts)
    {fuel : Nat} {s : σ} {ts : List Token} {a : α} (ha : a ∈ pieces step fuel s ts) :
    ∃ s₁ us found s₂ rest, step s₁ us = some (found, s₂, rest) ∧ a ∈ found ∧ us <:+ ts :=
  exists_kept_of_mem (P := (· <:+ ts))
    (fun s us found s' rest h hus => (hsuffix s us found s' rest h).trans hus) List.suffix_rfl ha

variable {step : σ → List Token → Option (List α × σ × List Token)}
  (hstep : ∀ s ts found s' rest, step s ts = some (found, s', rest) → rest.length < ts.length)
include hstep

theorem pieces_eq_of_le {n m : Nat} {s : σ} {ts : List Token} (hn : ts.length ≤ n)
    (hm : ts.length ≤ m) : pieces step n s ts = pieces step m s ts := by
  induction n generalizing m s ts with
  | zero =>
    obtain rfl := List.length_eq_zero_iff.mp (Nat.le_zero.mp hn)
    cases m with
    | zero => rfl
    | succ m =>
      cases h : step s [] with
      | none => simp [pieces, h]
      | some x => cases hstep s [] x.1 x.2.1 x.2.2 h
  | succ n ih =>
    cases h : step s ts with
    | none => cases m <;> simp [pieces, h]
    | some x =>
      obtain ⟨found, s', rest⟩ := x
      have hlt := hstep s ts found s' rest h
      cases m with
      | zero => omega
      | succ m =>
        simp only [pieces, h]
        rw [ih (m := m) (by omega) (by omega)]

/-- With fuel for its whole length, a list is its first piece and then the rest. -/
theorem pieces_length (s : σ) (ts : List Token) :
    pieces step ts.length s ts =
      match step s ts with
      | none => []
      | some (found, s', rest) => found ++ pieces step rest.length s' rest := by
  rw [pieces_eq_of_le hstep (Nat.le_refl _) (Nat.le_succ _), pieces]
  cases h : step s ts with
  | none => rfl
  | some x =>
    have hlt := hstep s ts x.1 x.2.1 x.2.2 h
    simp only
    rw [pieces_eq_of_le hstep (Nat.le_of_lt hlt) (Nat.le_refl _)]

/-- No list that a piece was found at the front of is longer than the whole. -/
theorem exists_step_of_mem {fuel : Nat} {s : σ} {ts : List Token} {a : α}
    (ha : a ∈ pieces step fuel s ts) :
    ∃ s₁ us found s₂ rest, step s₁ us = some (found, s₂, rest) ∧ a ∈ found ∧
      us.length ≤ ts.length :=
  exists_kept_of_mem (P := fun us => us.length ≤ ts.length)
    (fun s us found s' rest h hus => Nat.le_of_lt (Nat.lt_of_lt_of_le (hstep s us found s' rest h) hus))
    (Nat.le_refl _) ha

end Pieces

/-! ## What a piece leaves -/

/-- Behind a prelude there is no block, or a block between two brackets; nothing follows a block
without its closing bracket. -/
theorem takeUntil_cases (stop : Token → Bool) (ts : List Token) :
    ((takeUntil stop ts).2.1 = none ∧ (takeUntil stop ts).2.2 <:+ ts.tail) ∨
      ∃ t block close, (takeUntil stop ts).2.1 = some block ∧
        ts = (takeUntil stop ts).1 ++ t :: (block ++ (close ++ (takeUntil stop ts).2.2)) ∧
        (close = [] → (takeUntil stop ts).2.2 = []) := by
  have hsplit := spanTop_append stop ts
  simp only [takeUntil]
  generalize spanTop stop ts = x at hsplit
  obtain ⟨prelude, after⟩ := x
  cases after with
  | nil => exact .inl ⟨rfl, List.nil_suffix⟩
  | cons t rest =>
    simp only at hsplit ⊢
    split
    · have hblock := spanTop_append (fun t => t.closes? = some .curly) rest
      simp only [takeBlock]
      generalize spanTop (fun t => t.closes? = some .curly) rest = y at hblock
      obtain ⟨block, after⟩ := y
      refine .inr ⟨t, block, after.take 1, rfl, ?_, fun hclose => ?_⟩
      · rw [List.take_append_drop, hblock, hsplit]
      · have hafter : after = [] := by simpa using hclose
        rw [hafter, List.drop_nil]
    · refine .inl ⟨rfl, ?_⟩
      rw [← hsplit]
      cases prelude with
      | nil => exact List.suffix_rfl
      | cons u prelude => exact (List.suffix_cons t rest).trans (List.suffix_append _ _)

theorem suffix_takeUntil (stop : Token → Bool) (ts : List Token) :
    (takeUntil stop ts).2.2 <:+ ts.tail := by
  rcases takeUntil_cases stop ts with ⟨-, h⟩ | ⟨t, block, close, -, h, -⟩
  · exact h
  · rw [congrArg List.tail h]
    cases (takeUntil stop ts).1 with
    | nil => exact ⟨block ++ close, by simp⟩
    | cons u prelude => exact ⟨prelude ++ t :: (block ++ close), by simp⟩

theorem length_takeUntil_le (stop : Token → Bool) (ts : List Token) :
    (takeUntil stop ts).2.2.length ≤ ts.length - 1 := by
  simpa only [List.length_tail] using (suffix_takeUntil stop ts).length_le

theorem length_takeAtRule_le (ts : List Token) : (takeAtRule ts).2.2.length ≤ ts.length - 1 :=
  length_takeUntil_le _ ts

/-! ## Statements -/

def statementStep (fresh : Bool) (ts : List Token) :
    Option (List Statement × Bool × List Token) :=
  match ts.dropWhile Token.isFiller with
  | [] => none
  | t :: rest =>
    match t.kind with
    | .atKeyword name =>
      let (prelude, block, after) := takeAtRule rest
      if fresh && Text.sameIgnoringCase name "charset".toList then some ([], false, after)
      else some ([.atRule name prelude block], false, after)
    | _ =>
      let (prelude, block, after) := takeUntil Token.opensBody (t :: rest)
      some ([.qualified prelude block], false, after)

theorem statementStep_lt (fresh : Bool) (ts : List Token) (found : List Statement)
    (fresh' : Bool) (rest : List Token) (h : statementStep fresh ts = some (found, fresh', rest)) :
    rest.length < ts.length := by
  have hdrop : (ts.dropWhile Token.isFiller).length ≤ ts.length :=
    (List.dropWhile_suffix _).length_le
  simp only [statementStep] at h
  split at h
  · cases h
  · next t ts' heq =>
    rw [heq, List.length_cons] at hdrop
    have hat := length_takeAtRule_le ts'
    have hqualified := length_takeUntil_le Token.opensBody (t :: ts')
    rw [List.length_cons] at hqualified
    generalize takeAtRule ts' = x at h hat
    generalize takeUntil Token.opensBody (t :: ts') = y at h hqualified
    split at h
    · split at h <;> cases h <;> exact Nat.lt_of_le_of_lt hat (by omega)
    · cases h
      exact Nat.lt_of_le_of_lt hqualified (by omega)

theorem statementsFrom_eq (fuel : Nat) (fresh : Bool) (ts : List Token) :
    statementsFrom fuel fresh ts = pieces statementStep fuel fresh ts := by
  induction fuel generalizing fresh ts with
  | zero => rfl
  | succ fuel ih =>
    simp only [statementsFrom, pieces, statementStep]
    cases ts.dropWhile Token.isFiller with
    | nil => rfl
    | cons t rest =>
      simp only
      cases t.kind <;> simp only [ih, List.singleton_append]
      split <;> simp only [List.nil_append, List.singleton_append]

/-- The statements of a list behind the first one, or of a whole list (`fresh`). -/
def statementsBehind (fresh : Bool) (ts : List Token) : List Statement :=
  statementsFrom ts.length fresh ts

theorem statementsBehind_eq (fresh : Bool) (ts : List Token) :
    statementsBehind fresh ts =
      match statementStep fresh ts with
      | none => []
      | some (found, fresh', rest) => found ++ statementsBehind fresh' rest := by
  simp only [statementsBehind, statementsFrom_eq]
  rw [pieces_length statementStep_lt]
  cases statementStep fresh ts <;> rfl

section Front
variable {fresh : Bool} {ts rest : List Token} {t : Token}

theorem statementsBehind_nil (h : ts.dropWhile Token.isFiller = []) :
    statementsBehind fresh ts = [] := by
  rw [statementsBehind_eq, statementStep, h]

theorem statementsBehind_qualified (h : ts.dropWhile Token.isFiller = t :: rest)
    (ht : ∀ name, t.kind ≠ .atKeyword name) :
    statementsBehind fresh ts =
      .qualified (takeUntil Token.opensBody (t :: rest)).1
        (takeUntil Token.opensBody (t :: rest)).2.1 ::
          statementsBehind false (takeUntil Token.opensBody (t :: rest)).2.2 := by
  have hstep : statementStep fresh ts =
      some ([.qualified (takeUntil Token.opensBody (t :: rest)).1
        (takeUntil Token.opensBody (t :: rest)).2.1], false,
          (takeUntil Token.opensBody (t :: rest)).2.2) := by
    simp only [statementStep, h]
  rw [statementsBehind_eq, hstep]
  rfl

theorem statementsBehind_atRule {name : Text} (h : ts.dropWhile Token.isFiller = t :: rest)
    (ht : t.kind = .atKeyword name) :
    statementsBehind fresh ts =
      (if fresh && Text.sameIgnoringCase name "charset".toList then []
        else [.atRule name (takeAtRule rest).1 (takeAtRule rest).2.1]) ++
          statementsBehind false (takeAtRule rest).2.2 := by
  rw [statementsBehind_eq, statementStep, h]
  simp only [ht]
  by_cases hcharset : (fresh && Text.sameIgnoringCase name "charset".toList) = true
  · rw [if_pos hcharset, if_pos hcharset]
  · rw [if_neg hcharset, if_neg hcharset]

end Front

def Statement.block? : Statement → Option (List Token)
  | .atRule _ _ block => block
  | .qualified _ block => block

/-- What comes before the block of a statement, the at-word apart. -/
def Statement.prelude : Statement → List Token
  | .atRule _ prelude _ => prelude
  | .qualified prelude _ => prelude

/-- What is found at the front of a list of statements: nothing with a block, or a statement with its
block between two brackets. -/
theorem statementStep_cases {fresh fresh' : Bool} {ts rest : List Token} {found : List Statement}
    (h : statementStep fresh ts = some (found, fresh', rest)) :
    ((∀ s ∈ found, s.block? = none) ∧ rest <:+ ts) ∨
      ∃ s before t block close, found = [s] ∧ s.block? = some block ∧
        ts = before ++ (s.prelude ++ t :: (block ++ (close ++ rest))) ∧
        (close = [] → rest = []) := by
  have hdrop := List.dropWhile_suffix (l := ts) Token.isFiller
  simp only [statementStep] at h
  split at h
  · cases h
  · next t us hts =>
    rw [hts] at hdrop
    have hus : us <:+ ts := (List.suffix_cons t us).trans hdrop
    split at h
    · next name _ =>
      split at h
      · cases h
        exact .inl ⟨nofun, (suffix_takeUntil _ _).trans ((List.tail_suffix us).trans hus)⟩
      · cases h
        rcases takeUntil_cases (fun t => t.isSemicolon || t.opensBody) us with
          ⟨hnone, hrest⟩ | ⟨u, block, close, hblock, heq, hclose⟩
        · exact .inl ⟨List.forall_mem_singleton.mpr hnone, hrest.trans ((List.tail_suffix us).trans hus)⟩
        · obtain ⟨before, hbefore⟩ := hus
          exact .inr ⟨_, before, u, block, close, rfl, hblock,
            by rw [← hbefore]; exact congrArg (before ++ ·) heq, hclose⟩
    · cases h
      rcases takeUntil_cases Token.opensBody (t :: us) with
        ⟨hnone, hrest⟩ | ⟨u, block, close, hblock, heq, hclose⟩
      · exact .inl ⟨List.forall_mem_singleton.mpr hnone, hrest.trans hus⟩
      · obtain ⟨before, hbefore⟩ := hdrop
        exact .inr ⟨_, before, u, block, close, rfl, hblock,
          by rw [← hbefore]; exact congrArg (before ++ ·) heq, hclose⟩

theorem suffix_statementStep {fresh fresh' : Bool} {ts rest : List Token} {found : List Statement}
    (h : statementStep fresh ts = some (found, fresh', rest)) : rest <:+ ts := by
  rcases statementStep_cases h with ⟨-, h⟩ | ⟨s, before, t, block, close, -, -, rfl, -⟩
  · exact h
  · exact ⟨before ++ (s.prelude ++ t :: (block ++ close)), by simp⟩

/-- A block stands in the list of its statement. -/
theorem block_isInfix_of_mem_statements {ts block : List Token} {s : Statement}
    (hs : s ∈ statements ts) (hblock : s.block? = some block) : block <:+: ts := by
  rw [statements, statementsFrom_eq] at hs
  obtain ⟨_, us, found, _, rest, hstep, hmem, hus⟩ :=
    exists_suffix_of_mem (fun _ _ _ _ _ => suffix_statementStep) hs
  rcases statementStep_cases hstep with ⟨hnone, -⟩ | ⟨s', before, t, block', close, rfl, h, rfl, -⟩
  · cases (hnone s hmem).symm.trans hblock
  · obtain rfl := List.mem_singleton.mp hmem
    obtain rfl := Option.some.inj (h.symm.trans hblock)
    refine List.IsInfix.trans ?_ hus.isInfix
    exact ⟨before ++ (s.prelude ++ [t]), close ++ rest, by simp⟩

/-! ## Declarations -/

def declarationStep (_ : Unit) (ts : List Token) :
    Option (List Declaration × Unit × List Token) :=
  match ts.dropWhile fun t => t.isGap || t.isSemicolon with
  | [] => none
  | t :: rest =>
    match t.kind with
    | .atKeyword _ => some ([], (), (takeAtRule rest).2.2)
    | .ident property =>
      let (item, after) := spanTop Token.isSemicolon rest
      some ((declaration? property item).toList, (), after.drop 1)
    | _ => some ([], (), (spanTop Token.isSemicolon (t :: rest)).2.drop 1)

theorem length_spanTop_le (stop : Token → Bool) (ts : List Token) :
    (spanTop stop ts).2.length ≤ ts.length := by
  have h := congrArg List.length (spanTop_append stop ts)
  rw [List.length_append] at h
  omega

theorem declarationStep_lt (u : Unit) (ts : List Token) (found : List Declaration) (u' : Unit)
    (rest : List Token) (h : declarationStep u ts = some (found, u', rest)) :
    rest.length < ts.length := by
  have hdrop : (ts.dropWhile fun t => t.isGap || t.isSemicolon).length ≤ ts.length :=
    (List.dropWhile_suffix _).length_le
  simp only [declarationStep] at h
  split at h
  · cases h
  · next t ts' heq =>
    rw [heq, List.length_cons] at hdrop
    split at h
    · cases h
      exact Nat.lt_of_le_of_lt (length_takeAtRule_le ts') (by omega)
    · cases h
      rw [List.length_drop]
      exact Nat.lt_of_le_of_lt (Nat.sub_le _ _)
        (Nat.lt_of_le_of_lt (length_spanTop_le _ ts') (by omega))
    · cases h
      rw [List.length_drop]
      have hspan := length_spanTop_le Token.isSemicolon (t :: ts')
      rw [List.length_cons] at hspan
      exact Nat.lt_of_le_of_lt (Nat.sub_le_sub_right hspan 1) (by omega)

theorem declarationsFrom_eq (fuel : Nat) (ts : List Token) :
    declarationsFrom fuel ts = pieces declarationStep fuel () ts := by
  induction fuel generalizing ts with
  | zero => rfl
  | succ fuel ih =>
    simp only [declarationsFrom, pieces, declarationStep]
    cases ts.dropWhile fun t => t.isGap || t.isSemicolon with
    | nil => rfl
    | cons t rest =>
      simp only
      cases t.kind <;> simp only [ih, List.nil_append]

theorem declarations_eq (ts : List Token) :
    declarations ts =
      match declarationStep () ts with
      | none => []
      | some (found, _, rest) => found ++ declarations rest := by
  simp only [declarations, declarationsFrom_eq]
  rw [pieces_length declarationStep_lt]
  cases declarationStep () ts <;> rfl

end Css

end StyleRef

import StyleRef.Css.Grammar.Query
import StyleRef.Proofs.OuterSpace

/-
# White space around media queries

A condition is read group by group, and what a group holds as a condition again,
with three steps for each token.  More steps make no difference (`stepsAgree`), so
white space at either end of a list of media queries makes none
(`isMediaList_withoutOuterSpace`).
-/

namespace StyleRef

namespace Css

/-! ## Steps -/

section Steps
variable {rules : GroupRules} {ts : List Token}

theorem length_group_lt {n : Nat} {after : List Token} (h : group rules n ts = .ok after) :
    after.length < ts.length := by
  have hle := length_skipSpace_le ts
  cases n with
  | zero => simp [group] at h
  | succ n =>
    rw [group] at h
    split at h
    · cases h
    · next t rest heq =>
      have hblock := (length_takeBlock_le .round rest).2
      rw [heq, List.length_cons] at hle
      have hafter : ∀ r : Except Failure (List Token),
          (r.map fun _ => (takeBlock .round rest).2) = .ok after → after.length < ts.length := by
        intro r hr
        cases r with
        | error failure => cases hr
        | ok us =>
          cases hr
          exact Nat.lt_of_le_of_lt hblock hle
      split at h
      · exact hafter _ h
      · simp only at h
        split at h
        · split at h
          · exact hafter _ h
          · cases h
        · cases h
      · cases h

/-- Two numbers of steps, if both are enough for the tokens, come to the same. -/
structure StepsAgree (rules : GroupRules) (n m : Nat) (ts : List Token) : Prop where
  group : 3 * ts.length + 1 ≤ n → 3 * ts.length + 1 ≤ m → group rules n ts = group rules m ts
  contents : 3 * ts.length + 3 ≤ n → 3 * ts.length + 3 ≤ m →
    contents rules n ts = contents rules m ts
  joined (word : String) : 3 * ts.length + 1 ≤ n → 3 * ts.length + 1 ≤ m →
    joined rules word n ts = joined rules word m ts
  condition (choices : Bool) : 3 * ts.length + 2 ≤ n → 3 * ts.length + 2 ≤ m →
    condition rules n choices ts = condition rules m choices ts

section Step
variable {n m : Nat} (ih : ∀ us, StepsAgree rules n m us)
include ih

theorem group_succ_eq (hn : 3 * ts.length ≤ n) (hm : 3 * ts.length ≤ m) :
    group rules (n + 1) ts = group rules (m + 1) ts := by
  have hle := length_skipSpace_le ts
  rw [group, group]
  split
  · rfl
  · next t rest heq =>
    rw [heq, List.length_cons] at hle
    have hblock := (length_takeBlock_le .round rest).1
    simp only [(ih (takeBlock .round rest).1).contents (by omega) (by omega)]

theorem joined_succ_eq (word : String) (hn : 3 * ts.length ≤ n) (hm : 3 * ts.length ≤ m) :
    joined rules word (n + 1) ts = joined rules word (m + 1) ts := by
  have hle := length_skipSpace_le ts
  rw [joined, joined]
  split
  · rfl
  · next t rest heq =>
    rw [heq, List.length_cons] at hle
    rw [(ih rest).group (by omega) (by omega)]
    cases hgroup : group rules m rest with
    | error failure => rfl
    | ok after =>
      have hlt := length_group_lt hgroup
      simp only [Except.bind, (ih after).joined word (by omega) (by omega)]

theorem condition_succ_eq (choices : Bool) (hn : 3 * ts.length + 1 ≤ n) (hm : 3 * ts.length + 1 ≤ m) :
    condition rules (n + 1) choices ts = condition rules (m + 1) choices ts := by
  have hle := length_skipSpace_le ts
  rw [condition, condition]
  split
  · rfl
  · next t rest heq =>
    rw [heq] at hle
    have hrest : rest.length ≤ (t :: rest).length := Nat.le_succ _
    rw [(ih rest).group (by omega) (by omega), (ih (t :: rest)).group (by omega) (by omega)]
    cases hgroup : group rules m (t :: rest) with
    | error failure => rfl
    | ok after =>
      have hlt := length_group_lt hgroup
      have hskip := length_skipSpace_le after
      have hjoined (word : String) : joined rules word n (skipSpace after) =
          joined rules word m (skipSpace after) :=
        (ih (skipSpace after)).joined word (by omega) (by omega)
      simp only [Except.bind]
      split
      · rfl
      · cases hafter : skipSpace after with
        | nil => rfl
        | cons u next =>
          rw [hafter] at hjoined
          simp only [hjoined]

end Step

/-- With steps enough for the tokens, more make no difference. -/
theorem stepsAgree (n m : Nat) (ts : List Token) : StepsAgree rules n m ts := by
  induction n generalizing m ts with
  | zero =>
    refine ⟨?_, ?_, fun word => ?_, fun choices => ?_⟩ <;> intro h <;> omega
  | succ n ih =>
    refine ⟨fun hn hm => ?_, fun hn hm => ?_, fun word hn hm => ?_, fun choices hn hm => ?_⟩
    all_goals obtain ⟨m, rfl⟩ : ∃ k, m = k + 1 := ⟨m - 1, by omega⟩
    · exact group_succ_eq (ih m) (by omega) (by omega)
    · rw [contents, contents, (ih m ts).condition true (by omega) (by omega)]
    · exact joined_succ_eq (ih m) word (by omega) (by omega)
    · exact condition_succ_eq (ih m) choices (by omega) (by omega)

end Steps

/-! ## White space at the end -/

/-- The same reading with one more token behind what is left; there may be nothing left of both. -/
def Spaced (t : Token) (r r' : Reading) : Prop :=
  r' = r.map (· ++ [t]) ∨ r = .ok [] ∧ r' = .ok []

theorem opens?_of_isWordOf {u : Token} {words : List String} (hu : u.isWordOf words = true) :
    u.opens? = none := by
  obtain ⟨kind, text⟩ := u
  cases kind <;> first | rfl | cases hu

theorem opens?_of_isIdent {u : Token} (hu : u.isIdent = true) : u.opens? = none := by
  obtain ⟨kind, text⟩ := u
  cases kind <;> first | rfl | cases hu

theorem settles_token? {p : Token → Bool} (hp : ∀ u : Token, p u = true → u.opens? = none)
    {ts rest : List Token} (hts : settles [] ts = true) (h : token? p ts = some rest) :
    settles [] rest = true := by
  have hskip := (settles_skipSpace [] ts).trans hts
  rw [token?] at h
  split at h
  · next u us heq =>
    rw [heq] at hskip
    split at h
    · next hu =>
      cases h
      exact settles_of_cons (hp u hu) hskip
    · cases h
  · cases h

theorem settles_mediaType? {ts rest : List Token} (hts : settles [] ts = true)
    (h : mediaType? ts = some rest) : settles [] rest = true := by
  have hskip := (settles_skipSpace [] ts).trans hts
  rw [mediaType?] at h
  split at h
  · next u us heq =>
    rw [heq] at hskip
    split at h
    · next hword =>
      exact settles_token? (fun _ => opens?_of_isIdent)
        (settles_of_cons (opens?_of_isWordOf hword) hskip) h
    · split at h
      · next hident =>
        cases h
        exact settles_of_cons (opens?_of_isIdent hident) hskip
      · cases h
  · cases h

section Back
variable {t : Token} (ht : t.kind = .space) {rules : GroupRules} {ts : List Token}
include ht

theorem Spaced.whole {r r' : Reading} (h : Spaced t r r') : r'.whole = r.whole := by
  rcases h with rfl | ⟨rfl, rfl⟩
  · cases r with
    | error failure => rfl
    | ok rest => simp only [Reading.whole, Except.map, isDone_append_space ht]
  · rfl

theorem token?_append_space (p : Token → Bool) (ts : List Token) :
    token? p (ts ++ [t]) = (token? p ts).map (· ++ [t]) := by
  rw [token?, skipSpace_append_space ht, token?]
  cases skipSpace ts with
  | nil => rfl
  | cons u rest =>
    simp only [List.cons_append, List.cons_ne_nil, ↓reduceIte]
    split <;> rfl

omit ht in
/-- A block is taken as before, whatever is read from what is in it. -/
theorem map_takeBlock_append_space {u : Token} {b : Bracket} (hopen : u.opens? = some b)
    (hts : settles [] (u :: ts) = true) (r : Reading) :
    takeBlock b (ts ++ [t]) = ((takeBlock b ts).1, (takeBlock b ts).2 ++ [t]) ∧
      (r.map fun _ => (takeBlock b ts).2 ++ [t]) =
          (r.map fun _ => (takeBlock b ts).2).map (· ++ [t]) ∧
        ∀ after, (r.map fun _ => (takeBlock b ts).2) = .ok after → settles [] after = true := by
  have hblock := settles_block_of_cons hopen hts
  refine ⟨takeBlock_append_of_settles hblock [t], ?_⟩
  cases r with
  | error failure => exact ⟨rfl, fun _ h => by cases h⟩
  | ok inside => exact ⟨rfl, fun after h => Except.ok.inj h ▸ (settles_takeBlock hblock).2⟩

theorem group_append_space (hts : settles [] ts = true) (n : Nat) :
    group rules n (ts ++ [t]) = (group rules n ts).map (· ++ [t]) ∧
      ∀ after, group rules n ts = .ok after → settles [] after = true := by
  have hskip := (settles_skipSpace [] ts).trans hts
  cases n with
  | zero => simp [group, Except.map]
  | succ n =>
    rw [group, skipSpace_append_space ht, group]
    cases hus : skipSpace ts with
    | nil => exact ⟨rfl, fun _ h => by cases h⟩
    | cons u rest =>
      rw [hus] at hskip
      simp only [List.cons_append, List.cons_ne_nil, ↓reduceIte]
      have hround (hopen : u.opens? = some .round) (r : Reading) :=
        map_takeBlock_append_space (t := t) hopen hskip r
      cases hkind : u.kind with
      | opening b =>
        cases b with
        | round =>
          obtain ⟨htake, hmap⟩ := hround (by simp [Token.opens?, hkind])
            (contents rules n (takeBlock .round rest).1)
          simp only [htake]
          exact hmap
        | _ => exact ⟨rfl, fun _ h => by cases h⟩
      | function name =>
        cases rules.style with
        | none => exact ⟨rfl, fun _ h => by cases h⟩
        | some style =>
          obtain ⟨htake, hmap⟩ := hround (by simp [Token.opens?, hkind])
            (style (takeBlock .round rest).1).whole
          simp only [htake]
          split
          · exact hmap
          · exact ⟨rfl, fun _ h => by cases h⟩
      | _ => exact ⟨rfl, fun _ h => by cases h⟩

theorem joined_append_space (hts : settles [] ts = true) (word : String) (n : Nat) :
    Spaced t (joined rules word n ts) (joined rules word n (ts ++ [t])) := by
  induction n generalizing ts with
  | zero => exact .inl (by simp [joined, Except.map])
  | succ n ih =>
    have hskip := (settles_skipSpace [] ts).trans hts
    rw [joined, joined, skipSpace_append_space ht]
    cases hus : skipSpace ts with
    | nil => exact .inr ⟨rfl, rfl⟩
    | cons u rest =>
      rw [hus] at hskip
      simp only [List.cons_append, List.cons_ne_nil, ↓reduceIte]
      split
      · next hword =>
        have hrest := settles_of_cons (opens?_of_isWordOf hword) hskip
        obtain ⟨hgroup, hafter⟩ := @group_append_space t ht rules rest hrest n
        rw [hgroup]
        cases hr : group rules n rest with
        | error failure => exact .inl rfl
        | ok after => exact ih (hafter after hr)
      · exact .inl rfl

theorem condition_append_space (hts : settles [] ts = true) (choices : Bool) (n : Nat) :
    Spaced t (condition rules n choices ts) (condition rules n choices (ts ++ [t])) := by
  cases n with
  | zero => exact .inl (by simp [condition, Except.map])
  | succ n =>
    have hskip := (settles_skipSpace [] ts).trans hts
    rw [condition, condition, skipSpace_append_space ht]
    cases hus : skipSpace ts with
    | nil => exact .inl rfl
    | cons u rest =>
      rw [hus] at hskip
      simp only [List.cons_append, List.cons_ne_nil, ↓reduceIte]
      split
      · next hword =>
        have hrest := settles_of_cons (opens?_of_isWordOf hword) hskip
        exact .inl (@group_append_space t ht rules rest hrest n).1
      · obtain ⟨hgroup, hafter⟩ := @group_append_space t ht rules (u :: rest) hskip n
        rw [List.cons_append] at hgroup
        rw [hgroup]
        cases hr : group rules n (u :: rest) with
        | error failure => exact .inl rfl
        | ok after =>
          have hskip := (settles_skipSpace [] after).trans (hafter after hr)
          have hjoined (word : String) :=
            @joined_append_space t ht rules (skipSpace after) hskip word n
          simp only [Except.map, Except.bind, skipSpace_append_space ht]
          cases hus : skipSpace after with
          | nil => exact .inr ⟨rfl, rfl⟩
          | cons v next =>
            rw [hus] at hjoined
            simp only [List.cons_append, List.cons_ne_nil, ↓reduceIte] at hjoined ⊢
            split
            · exact hjoined "and"
            · split
              · split
                · exact hjoined "or"
                · exact .inl rfl
              · exact .inl rfl

theorem wholeCondition_append_space (hts : settles [] ts = true) (choices : Bool) :
    wholeCondition rules choices (ts ++ [t]) = wholeCondition rules choices ts := by
  rw [wholeCondition, (condition_append_space ht hts choices _).whole ht,
    (stepsAgree _ (conditionDepth ts) ts).condition choices, wholeCondition]
  · simp only [conditionDepth, List.length_append]
    omega
  · simp only [conditionDepth]
    omega

theorem mediaType?_append_space (ts : List Token) :
    mediaType? (ts ++ [t]) = (mediaType? ts).map (· ++ [t]) := by
  rw [mediaType?, skipSpace_append_space ht, mediaType?]
  cases skipSpace ts with
  | nil => rfl
  | cons u rest =>
    simp only [List.cons_append, List.cons_ne_nil, ↓reduceIte, token?_append_space ht]
    split
    · rfl
    · split <;> rfl

theorem mediaQuery_append_space (hts : settles [] ts = true) :
    mediaQuery (ts ++ [t]) = mediaQuery ts := by
  rw [mediaQuery, mediaType?_append_space ht, mediaQuery]
  cases htype : mediaType? ts with
  | none => exact wholeCondition_append_space ht hts true
  | some rest =>
    have hrest := settles_mediaType? hts htype
    simp only [Option.map_some, token?_append_space ht]
    cases hand : token? (Token.isWordOf ["and"]) rest with
    | none => exact Spaced.whole ht (r := .ok rest) (.inl rfl)
    | some next =>
      exact wholeCondition_append_space ht (settles_token? (fun _ => opens?_of_isWordOf) hrest hand) false

theorem isMediaList_append_space (hts : settles [] ts = true) :
    isMediaList (ts ++ [t]) = isMediaList ts := by
  have hsep : t.isComma = false := by simp [Token.isComma, ht]
  have hcomma (u : Token) (hu : u.isComma = true) : u.opens? = none := by
    simp [Token.opens?, of_decide_eq_true hu]
  obtain ⟨parts, last, hparts, hspace, -, hsettles⟩ :=
    splitNested_append_space hsep hcomma hts
  have hlast : mediaQuery (last ++ [t]) = mediaQuery last :=
    mediaQuery_append_space ht (by split at hsettles <;> exact hsettles)
  rw [isMediaList, isMediaList, splitCommas, hspace, splitCommas, hparts]
  clear hparts hspace hsettles
  induction parts with
  | nil => simp only [List.nil_append, areMediaQueries, hlast]
  | cons part parts ih =>
    rw [List.cons_append, List.cons_append, areMediaQueries, areMediaQueries, ih]
    cases parts <;> rfl

end Back

/-! ## White space at the front -/

section Front
variable {t : Token} (ht : t.kind = .space) (ts : List Token)
include ht

theorem wholeCondition_space_cons (rules : GroupRules) (choices : Bool) :
    wholeCondition rules choices (t :: ts) = wholeCondition rules choices ts := by
  have hcondition (n : Nat) : condition rules n choices (t :: ts) = condition rules n choices ts := by
    cases n with
    | zero => rfl
    | succ n => rw [condition, condition, skipSpace_space_cons ht]
  rw [wholeCondition, hcondition, (stepsAgree _ (conditionDepth ts) ts).condition choices, wholeCondition]
  · simp only [conditionDepth, List.length_cons]
    omega
  · simp only [conditionDepth]
    omega

theorem mediaQuery_space_cons : mediaQuery (t :: ts) = mediaQuery ts := by
  rw [mediaQuery, mediaQuery, mediaType?, mediaType?, skipSpace_space_cons ht,
    wholeCondition_space_cons ht]

theorem isMediaList_space_cons : isMediaList (t :: ts) = isMediaList ts := by
  have hsep : t.isComma = false := by simp [Token.isComma, ht]
  obtain ⟨part, parts, hparts, hcons⟩ := splitNested_space_cons ht hsep ts
  rw [isMediaList, isMediaList, splitCommas, hcons, splitCommas, hparts, areMediaQueries,
    mediaQuery_space_cons ht, areMediaQueries]

end Front

/-- White space around a list of media queries makes no difference. -/
theorem isMediaList_withoutOuterSpace {ts : List Token} (hts : settles [] ts = true) :
    isMediaList ts = isMediaList (withoutOuterSpace ts) :=
  apply_withoutOuterSpace (p := fun _ => True) (fun _ us ht => isMediaList_space_cons ht us)
    (fun _ _ ht hus _ => isMediaList_append_space ht hus) (fun _ _ _ => trivial) trivial hts

end Css

end StyleRef

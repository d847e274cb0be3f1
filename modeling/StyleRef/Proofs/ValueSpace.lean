import StyleRef.Css.Grammar.Value
import StyleRef.Proofs.OuterSpace
import StyleRef.Proofs.Pieces

/-
# White space around values

A value is looked at token by token, and the arguments of a function as values
of their own, with as many steps as there are tokens.  More steps make no
difference (`isListFrom_eq_of_lt`), so white space at either end makes none
(`isValueOf_eq`).
-/

namespace StyleRef

namespace Css

/-! ## What a piece leaves -/

/-- A piece leaves no more than it was given. -/
def Shrinks {α : Type} (left : α → List Token) (f : List Token → Option α) : Prop :=
  ∀ ts, ∀ x ∈ f ts, (left x).length ≤ ts.length

section Shrinks
variable {α β : Type} {left : α → List Token} {left' : β → List Token}

theorem Shrinks.bind {f : List Token → Option α} (hf : Shrinks left f)
    {g : α → Option β} (hg : ∀ x, ∀ y ∈ g x, (left' y).length ≤ (left x).length) :
    Shrinks left' fun ts => (f ts).bind g := by
  intro ts y hy
  obtain ⟨x, hx, hy⟩ := Option.bind_eq_some_iff.mp hy
  exact Nat.le_trans (hg x y hy) (hf ts x hx)

theorem Shrinks.map {f : List Token → Option α} (hf : Shrinks left f) {g : α → β}
    (hg : ∀ x, left' (g x) = left x) : Shrinks left' fun ts => (f ts).map g := by
  intro ts y hy
  obtain ⟨x, hx, rfl⟩ := Option.map_eq_some_iff.mp hy
  rw [hg]
  exact hf ts x hx

theorem shrinks_token? (p : Token → Bool) : Shrinks id (token? p) := by
  intro ts rest h
  have hle := length_skipSpace_le ts
  rw [token?] at h
  split at h
  · next t us heq =>
    split at h
    · cases h
      rw [heq, List.length_cons] at hle
      exact Nat.le_of_succ_le hle
    · cases h
  · cases h

theorem shrinks_measured? (measure : Measure) (p : Token → Bool) (q : Amount → Bool) :
    Shrinks id (measured? measure p q) := by
  intro ts rest h
  have hle := length_skipSpace_le ts
  rw [measured?] at h
  split at h
  · cases h
  · next t us heq =>
    rw [heq, List.length_cons] at hle
    have hblock := (length_takeBlock_le .round us).2
    split at h
    · simp only at h
      split at h
      · cases h
        exact Nat.le_trans hblock (Nat.le_of_succ_le hle)
      · cases h
    · split at h
      · cases h
        exact Nat.le_of_succ_le hle
      · cases h

theorem shrinks_numberOrPercentage? : Shrinks id numberOrPercentage? := by
  intro ts rest h
  rw [Option.mem_def, numberOrPercentage?, Option.or_eq_some_iff] at h
  rcases h with h | ⟨-, h⟩
  · exact shrinks_measured? _ _ _ ts rest h
  · exact shrinks_measured? _ _ _ ts rest h

namespace Components

variable (c : Components)

theorem shrinks_numeric? : Shrinks (·.2) c.numeric? := by
  intro ts x h
  rw [Option.mem_def, numeric?] at h
  split at h
  · next hnumber =>
    cases h
    exact shrinks_measured? _ _ _ ts _ hnumber
  · split at h
    · next hpercentage =>
      cases h
      exact shrinks_measured? _ _ _ ts _ hpercentage
    · exact (shrinks_token? _).map (g := (Component.name, ·)) (fun _ => rfl) ts x h

theorem shrinks_hue? : Shrinks (·.2) c.hue? := by
  intro ts x h
  rw [Option.mem_def, hue?] at h
  split at h
  · next hangle =>
    cases h
    exact shrinks_measured? _ _ _ ts _ hangle
  · split at h
    · next hnumber =>
      cases h
      exact shrinks_measured? _ _ _ ts _ hnumber
    · exact (shrinks_token? _).map (g := (Component.name, ·)) (fun _ => rfl) ts x h

theorem shrinks_afterNumeric? : Shrinks id c.afterNumeric? :=
  c.shrinks_numeric?.map fun _ => rfl

theorem shrinks_alike? (first : Component) : Shrinks id (alike? first) := by
  refine (shrinks_token? _).bind fun rest y h => ?_
  cases first <;> exact shrinks_measured? _ _ _ rest y h

theorem shrinks_pair : Shrinks id fun ts => (c.afterNumeric? ts).bind c.afterNumeric? :=
  c.shrinks_afterNumeric?.bind c.shrinks_afterNumeric?

theorem shrinks_primaries? : Shrinks (·.2) c.primaries? := by
  refine c.shrinks_numeric?.bind fun x y h => ?_
  obtain ⟨first, rest⟩ := x
  simp only at h
  split at h
  · exact ((shrinks_alike? first).bind (shrinks_alike? first)).map (g := (true, ·)) (fun _ => rfl) rest y h
  · exact c.shrinks_pair.map (g := (false, ·)) (fun _ => rfl) rest y h

theorem shrinks_hueAndShares? (commas : Bool) : Shrinks (·.2) (c.hueAndShares? commas) := by
  refine c.shrinks_hue?.bind fun x y h => ?_
  obtain ⟨first, rest⟩ := x
  simp only at h
  split at h
  · refine (((shrinks_token? _).bind shrinks_numberOrPercentage?).bind (shrinks_token? _)).bind
      (fun us z hz => ?_) rest y h
    exact shrinks_numberOrPercentage?.map (g := (true, ·)) (fun _ => rfl) us z hz
  · exact c.shrinks_pair.map (g := (false, ·)) (fun _ => rfl) rest y h

end Components

theorem shrinks_colorWithin? (depth : Nat) : Shrinks (·.2) (colorWithin? depth) := by
  intro ts x h
  have hle := length_skipSpace_le ts
  cases depth with
  | zero => cases h
  | succ depth =>
    rw [Option.mem_def, colorWithin?] at h
    split at h
    · cases h
    · next t rest heq =>
      rw [heq, List.length_cons] at hle
      have hblock := (length_takeBlock_le .round rest).2
      have hrest : ∀ settled, some (settled, rest) = some x → x.2.length ≤ ts.length := by
        rintro settled ⟨⟩
        exact Nat.le_of_succ_le hle
      split at h
      · split at h
        · exact hrest _ h
        · cases h
      · split at h
        · exact hrest _ h
        · cases h
      · split at h
        · exact hrest _ h
        · split at h
          · exact hrest _ h
          · cases h
      · obtain ⟨settled, -, rfl⟩ := Option.map_eq_some_iff.mp h
        exact Nat.le_trans hblock (Nat.le_of_succ_le hle)
      · cases h

theorem shrinks_source? {color : List Token → Option (Bool × List Token)}
    (hcolor : Shrinks (·.2) color) (missing : Bool) (name : Text) :
    Shrinks (·.2) (source? color missing name) := by
  intro ts x h
  rw [Option.mem_def, source?] at h
  split at h
  · cases h
    exact Nat.le_refl _
  · next rest heq =>
    have hrest : rest.length ≤ ts.length := shrinks_token? _ ts rest heq
    split at h
    · next heq =>
      cases h
      exact Nat.le_trans (hcolor rest _ heq) hrest
    · cases h

theorem shrinks_openOpacity? (name : Text) : Shrinks id (openOpacity? name) := by
  intro ts values h
  rw [Option.mem_def, openOpacity?] at h
  split at h
  · cases h
  · have hsource := shrinks_source? (shrinks_colorWithin? (colorDepth ts)) false name
    refine hsource.bind (fun x y hy => ?_) ts values h
    obtain ⟨c, rest⟩ := x
    have hparts : Shrinks (·.2) fun rest =>
        if isWord name ["rgb"] then c.primaries? rest else c.hueAndShares? false rest := by
      intro us z hz
      split at hz
      · exact c.shrinks_primaries? us z hz
      · exact c.shrinks_hueAndShares? false us z hz
    refine hparts.bind (fun z w hw => ?_) rest y hy
    obtain ⟨commas, us⟩ := z
    cases commas with
    | true => cases hw
    | false => exact shrinks_token? _ us w hw

end Shrinks

/-! ## The number of steps -/

theorem length_openColor?_le {name : Text} {ts : List Token} :
    ∀ values ∈ openColor? name ts, ∀ v ∈ values, v.length ≤ ts.length := by
  intro values h v hv
  rw [Option.mem_def, openColor?] at h
  split at h
  · split at h
    · next light t dark heq =>
      cases h
      have hsplit := congrArg List.length (spanTop_append Token.isComma ts)
      simp only [heq, List.length_append, List.length_cons] at hsplit
      simp only [List.mem_cons, List.not_mem_nil, or_false] at hv
      rcases hv with rfl | rfl <;> omega
    · cases h
  · obtain ⟨rest, hrest, rfl⟩ := Option.map_eq_some_iff.mp h
    obtain rfl := List.mem_singleton.mp hv
    exact shrinks_openOpacity? name ts _ hrest

theorem length_argumentValues?_le {name : Text} {ts : List Token} :
    ∀ values ∈ argumentValues? name ts, ∀ v ∈ values, v.2.length ≤ ts.length := by
  unfold argumentValues?
  extract_lets fallback
  have hfallback {depth : Nat} {us : List Token} {values : List (Nat × List Token)}
      (h : fallback depth us = some values) : ∀ v ∈ values, v.2.length ≤ us.length := by
    have hle := length_skipSpace_le us
    intro v hv
    simp only [fallback] at h
    split at h
    · cases h
      cases hv
    · next heq =>
      cases h
      obtain rfl := List.mem_singleton.mp hv
      rw [heq, List.length_cons] at hle
      exact Nat.le_of_succ_le hle
    · cases h
  intro values h v hv
  rw [Option.mem_def] at h
  split at h
  · obtain ⟨rest, hrest, h⟩ := Option.bind_eq_some_iff.mp h
    exact Nat.le_trans (hfallback h v hv) (shrinks_token? _ ts rest hrest)
  · split at h
    · obtain ⟨rest, hrest, h⟩ := Option.bind_eq_some_iff.mp h
      have hdrop : (rest.dropWhile fun t => decide (t.kind = .space) || t.isInteger).length ≤ rest.length :=
        (List.dropWhile_suffix _).length_le
      exact Nat.le_trans (Nat.le_trans (hfallback h v hv) hdrop) (shrinks_token? _ ts rest hrest)
    · split at h
      · split at h
        · cases h
          cases hv
        · cases h
      · cases h
        obtain rfl := List.mem_singleton.mp hv
        exact Nat.le_refl _

/-- With steps enough for the tokens, more make no difference. -/
theorem isListFrom_eq_of_lt {n m depth : Nat} {ts : List Token} (hn : ts.length < n)
    (hm : ts.length < m) : isListFrom n depth ts = isListFrom m depth ts := by
  induction n generalizing m depth ts with
  | zero => cases hn
  | succ n ih =>
    obtain ⟨m, rfl⟩ : ∃ k, m = k + 1 := ⟨m - 1, by omega⟩
    cases ts with
    | nil => rfl
    | cons t rest =>
      rw [List.length_cons] at hn hm
      have hrest : isListFrom n depth rest = isListFrom m depth rest := ih (by omega) (by omega)
      have hblock (b : Bracket) := length_takeBlock_le b rest
      have hafter (b : Bracket) : isListFrom n depth (takeBlock b rest).2 =
          isListFrom m depth (takeBlock b rest).2 :=
        ih (by have := hblock b; omega) (by have := hblock b; omega)
      have hinside (b : Bracket) {v : List Token} (hv : v.length ≤ (takeBlock b rest).1.length)
          (depth : Nat) : isListFrom n depth v = isListFrom m depth v :=
        ih (by have := hblock b; omega) (by have := hblock b; omega)
      cases hkind : t.kind with
      | opening b => simp only [isListFrom, hkind, hinside b (Nat.le_refl _), hafter]
      | function name =>
        have hopen (values) (h : openColor? name (takeBlock .round rest).1 = some values) :
            values.all (isListFrom n 0) = values.all (isListFrom m 0) :=
          all_congr_of_mem fun v hv => hinside .round (length_openColor?_le values h v hv) 0
        have hargument (values) (h : argumentValues? name (takeBlock .round rest).1 = some values) :
            ∀ v ∈ values, isListFrom n (depth + v.1) v.2 = isListFrom m (depth + v.1) v.2 :=
          fun v hv => hinside .round (length_argumentValues?_le values h v hv) _
        simp only [isListFrom, hkind, hafter]
        cases hcolor : openColor? name (takeBlock .round rest).1 with
        | some values => simp only [hopen values hcolor]
        | none =>
          cases hvalues : argumentValues? name (takeBlock .round rest).1 with
          | some values => simp only [all_congr_of_mem (hargument values hvalues)]
          | none => rfl
      | _ => simp only [isListFrom, hkind, hrest]

/-! ## White space -/

section Space
variable {t : Token} (ht : t.kind = .space)
include ht

theorem isListFrom_space_cons (n depth : Nat) (ts : List Token) :
    isListFrom (n + 2) depth (t :: ts) = isListFrom (n + 1) depth ts := by
  rw [isListFrom]
  simp only [ht]
  by_cases hdepth : depth ≤ maxNesting <;> simp [hdepth, isListFrom]

theorem isListFrom_append_space {n depth : Nat} {ts : List Token} (hts : settles [] ts = true)
    (hn : ts.length + 1 < n) : isListFrom n depth (ts ++ [t]) = isListFrom n depth ts := by
  induction n generalizing depth ts with
  | zero => cases hn
  | succ n ih =>
    cases ts with
    | nil =>
      obtain ⟨n, rfl⟩ : ∃ k, n = k + 1 := ⟨n - 1, by rw [List.length_nil] at hn; omega⟩
      rw [List.nil_append, isListFrom_space_cons ht]
      rfl
    | cons u rest =>
      rw [List.length_cons] at hn
      obtain ⟨hfit, hsettled⟩ := settles_cons.mp hts
      have hafter {b : Bracket} (hopen : u.opens? = some b) :
          takeBlock b (rest ++ [t]) = ((takeBlock b rest).1, (takeBlock b rest).2 ++ [t]) ∧
            isListFrom n depth ((takeBlock b rest).2 ++ [t]) =
              isListFrom n depth (takeBlock b rest).2 := by
        have hblock := settles_block_of_cons hopen hts
        have hle := length_takeBlock_le b rest
        exact ⟨takeBlock_append_of_settles hblock [t], ih (settles_takeBlock hblock).2 (by omega)⟩
      have hrest (hopen : u.opens? = none) :
          isListFrom n depth (rest ++ [t]) = isListFrom n depth rest :=
        ih (by simpa [nest, hopen] using hsettled) (by omega)
      cases hkind : u.kind with
      | opening b =>
        obtain ⟨htake, heq⟩ := hafter (b := b) (by simp [Token.opens?, hkind])
        simp only [List.cons_append, isListFrom, hkind, htake, heq]
      | function name =>
        obtain ⟨htake, heq⟩ := hafter (b := .round) (by simp [Token.opens?, hkind])
        simp only [List.cons_append, isListFrom, hkind, htake, heq]
      | badString => simp only [List.cons_append, isListFrom, hkind]
      | badUrl => simp only [List.cons_append, isListFrom, hkind]
      | closing b => simp only [List.cons_append, isListFrom, hkind]
      | _ => simp only [List.cons_append, isListFrom, hkind, hrest (by simp [Token.opens?, hkind])]

theorem isList_space_cons (ts : List Token) : isList (t :: ts) = isList ts :=
  isListFrom_space_cons ht ts.length 0 ts

theorem isList_append_space {ts : List Token} (hts : settles [] ts = true) :
    isList (ts ++ [t]) = isList ts := by
  rw [isList, isListFrom_eq_of_lt (m := ts.length + 2) (Nat.lt_succ_self _) (by simp),
    isListFrom_append_space ht hts (Nat.lt_succ_self _),
    isListFrom_eq_of_lt (m := ts.length + 1) (by omega) (Nat.lt_succ_self _), isList]

theorem isPlainValueOf_space_cons (property : Text) (ts : List Token) :
    isPlainValueOf property (t :: ts) = isPlainValueOf property ts := by
  simp only [isPlainValueOf, isWideKeyword, isSingle_space_cons ht, isList_space_cons ht]

theorem isPlainValueOf_append_space (property : Text) {ts : List Token} (hts : settles [] ts = true) :
    isPlainValueOf property (ts ++ [t]) = isPlainValueOf property ts := by
  simp only [isPlainValueOf, isWideKeyword, isSingle_append_space ht, isList_append_space ht hts]

end Space

theorem isPlainValueOf_withoutOuterSpace (property : Text) {ts : List Token}
    (hts : settles [] ts = true) :
    isPlainValueOf property ts = isPlainValueOf property (withoutOuterSpace ts) :=
  apply_withoutOuterSpace (p := fun _ => True)
    (fun _ us ht => isPlainValueOf_space_cons ht property us)
    (fun _ _ ht hus _ => isPlainValueOf_append_space ht property hus) (fun _ _ _ => trivial) trivial hts

/-! ## Annotations -/

theorem isSingle_eq (p : Token → Bool) (ts : List Token) :
    isSingle p ts =
      match withoutSpace ts with
      | [t] => p t
      | _ => false := by
  induction ts with
  | nil => rfl
  | cons t ts ih =>
    by_cases ht : t.kind = .space
    · rw [isSingle_space_cons ht, ih, withoutSpace, withoutSpace,
        List.filter_cons_of_neg (by simp [ht])]
    · have hdone : isDone ts = (withoutSpace ts).isEmpty := by
        rw [Bool.eq_iff_iff]
        simp [isDone, withoutSpace]
      have hskip : skipSpace (t :: ts) = t :: ts := List.dropWhile_cons_of_neg (by simp [ht])
      rw [isSingle, hskip, withoutSpace, List.filter_cons_of_pos (by simp [ht]), ← withoutSpace]
      simp only [hdone]
      cases withoutSpace ts <;> simp

/-- White space around a value and in its annotation makes no difference. -/
theorem isValueOf_eq (property : Text) {ts : List Token} (hts : settles [] ts = true) :
    isValueOf property ts =
      (isPlainValueOf property (valueParts property ts).1 &&
        isAnnotated (valueParts property ts).2) := by
  have hhead := spanNested_stop (endsValue property) [] ts
  rw [← spanTop] at hhead
  have hvalue : settles [] (spanTop (endsValue property) ts).1 = true := settles_spanNested hts
  have hsplit : isValueOf property ts =
      (isPlainValueOf property (spanTop (endsValue property) ts).1 &&
        isAnnotated (spanTop (endsValue property) ts).2) := rfl
  rw [hsplit, isPlainValueOf_withoutOuterSpace property hvalue, valueParts]
  congr 1
  cases hrest : (spanTop (endsValue property) ts).2 with
  | nil => rfl
  | cons t rest =>
    rw [hrest] at hhead
    have ht : t.kind ≠ .space := by
      intro hspace
      have := hhead t rfl
      simp [endsValue, Token.isDelim, Token.opensBody, hspace] at this
    have hidem : withoutSpace (withoutSpace rest) = withoutSpace rest := by
      simp [withoutSpace]
    rw [withoutSpace, List.filter_cons_of_pos (by simp [ht]), ← withoutSpace]
    simp only [isAnnotated, isSingle_eq, hidem]

end Css

end StyleRef

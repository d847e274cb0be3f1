import StyleRef.Proofs.Substitution

/-
# The grammar of tokens

A token is found by a direct scan: the first `ref(`, the first comma behind it, the
first closing bracket behind that.  Two other accounts of tokens are compared with
the scan here.

* By its form (`RefToken.InForm`): some piece of the value is `ref(`, a text, a
  comma, and so on, each text without the characters that would end it.
* By a pattern (`tokenPattern`) that is tried at every place from left to right,
  each repetition in it taking as much as it can and giving back what is too much.

What starts at a place can be a token in one way at most, so it makes no difference
in which order the ways are tried (`head?_fits_tokenPattern`).  And if no token
starts at the first `ref(` then none starts behind it: the comma and the bracket of
the later one would end the earlier one too (`isSome_read?_of_isSuffix`).
-/

namespace StyleRef

/-! ## Patterns -/

inductive Pattern where
  /-- The characters, one after the other. -/
  | literal (s : Text)
  /-- As many characters of a class as can be, which are captured. -/
  | many (p : Char → Bool)
  /-- One pattern and then the other. -/
  | seq (a b : Pattern)
  /-- The pattern if it can be, or else nothing. -/
  | optional (a : Pattern)

namespace Pattern

def captures : Pattern → Nat
  | literal _ => 0
  | many _ => 1
  | seq a b => a.captures + b.captures
  | optional a => a.captures

/-- The ways to split a text behind characters of a class, the longest first. -/
def splits (p : Char → Bool) : Text → List (Text × Text)
  | [] => [([], [])]
  | c :: s =>
    if p c then (splits p s).map (fun (a, b) => (c :: a, b)) ++ [([], c :: s)]
    else [([], c :: s)]

/-- The ways in which a pattern fits the front of a text, in the order in which they are tried: what
is captured, and the text behind. -/
def fits : Pattern → Text → List (List (Option Text) × Text)
  | literal w, s => (w.isPrefixOf? s).toList.map ([], ·)
  | many p, s => (splits p s).map fun (a, b) => ([some a], b)
  | seq a b, s => (a.fits s).flatMap fun (u, r) => (b.fits r).map fun (v, r) => (u ++ v, r)
  | optional a, s => a.fits s ++ [(List.replicate a.captures none, s)]

/-- The first place at which a pattern fits, and the first way in which it fits there: the text
before, what is captured, and the text behind. -/
def search? (a : Pattern) : Text → Option (Text × List (Option Text) × Text)
  | [] => (a.fits []).head?.map fun (u, r) => ([], u, r)
  | c :: s =>
    match (a.fits (c :: s)).head? with
    | some (u, r) => some ([], u, r)
    | none => (a.search? s).map fun (before, u, r) => (c :: before, u, r)

theorem mem_splits {p : Char → Bool} {s : Text} {x : Text × Text} :
    x ∈ splits p s ↔ s = x.1 ++ x.2 ∧ ∀ c ∈ x.1, p c = true := by
  obtain ⟨a, b⟩ := x
  induction s generalizing a with
  | nil =>
    cases a <;> cases b <;> simp [splits]
  | cons c s ih =>
    have hhere : (a, b) ∈ [(([] : Text), c :: s)] ↔ a = [] ∧ c :: s = b := by simp [eq_comm]
    rw [splits]
    split
    · next hc =>
      rw [List.mem_append, hhere, List.mem_map]
      constructor
      · rintro (⟨⟨a', b'⟩, hmem, heq⟩ | ⟨rfl, rfl⟩)
        · cases heq
          obtain ⟨rfl, ha⟩ := (ih a').mp hmem
          exact ⟨rfl, List.forall_mem_cons.mpr ⟨hc, ha⟩⟩
        · exact ⟨rfl, nofun⟩
      · rintro ⟨heq, ha⟩
        cases a with
        | nil => exact .inr ⟨rfl, heq⟩
        | cons d a =>
          obtain ⟨rfl, rfl⟩ := List.cons.inj heq
          exact .inl ⟨(a, b), (ih a).mpr ⟨rfl, (List.forall_mem_cons.mp ha).2⟩, rfl⟩
    · next hc =>
      rw [hhere]
      constructor
      · rintro ⟨rfl, rfl⟩
        exact ⟨rfl, nofun⟩
      · rintro ⟨heq, ha⟩
        cases a with
        | nil => exact ⟨rfl, heq⟩
        | cons d a =>
          obtain ⟨rfl, -⟩ := List.cons.inj heq
          exact absurd (List.forall_mem_cons.mp ha).1 hc

section Mem
variable {s r : Text} {u : List (Option Text)}

theorem mem_fits_literal {w : Text} : (u, r) ∈ (literal w).fits s ↔ u = [] ∧ s = w ++ r := by
  rw [fits, List.mem_map]
  simp only [Option.mem_toList, Text.isPrefixOf?_eq_some_iff, Prod.mk.injEq]
  constructor
  · rintro ⟨r', hs, rfl, rfl⟩
    exact ⟨rfl, hs⟩
  · rintro ⟨rfl, hs⟩
    exact ⟨r, hs, rfl, rfl⟩

theorem mem_fits_many {p : Char → Bool} :
    (u, r) ∈ (many p).fits s ↔ ∃ a, u = [some a] ∧ s = a ++ r ∧ ∀ c ∈ a, p c = true := by
  simp only [fits, List.mem_map, Prod.exists, Prod.mk.injEq, mem_splits]
  constructor
  · rintro ⟨a, b, ⟨hs, ha⟩, rfl, rfl⟩
    exact ⟨a, rfl, hs, ha⟩
  · rintro ⟨a, rfl, hs, ha⟩
    exact ⟨a, r, ⟨hs, ha⟩, rfl, rfl⟩

theorem mem_fits_seq {a b : Pattern} :
    (u, r) ∈ (seq a b).fits s ↔
      ∃ v w m, u = v ++ w ∧ (v, m) ∈ a.fits s ∧ (w, r) ∈ b.fits m := by
  simp only [fits, List.mem_flatMap, List.mem_map, Prod.exists, Prod.mk.injEq]
  constructor
  · rintro ⟨v, m, hv, w, r', hw, rfl, rfl⟩
    exact ⟨v, w, m, rfl, hv, hw⟩
  · rintro ⟨v, w, m, rfl, hv, hw⟩
    exact ⟨v, m, hv, w, r, hw, rfl, rfl⟩

theorem mem_fits_literal_seq {w : Text} {b : Pattern} :
    (u, r) ∈ (seq (literal w) b).fits s ↔ ∃ m, s = w ++ m ∧ (u, r) ∈ b.fits m := by
  simp only [mem_fits_seq, mem_fits_literal]
  constructor
  · rintro ⟨_, u, m, rfl, ⟨rfl, hs⟩, hm⟩
    exact ⟨m, hs, hm⟩
  · rintro ⟨m, hs, hm⟩
    exact ⟨[], u, m, rfl, ⟨rfl, hs⟩, hm⟩

theorem mem_fits_many_seq {p : Char → Bool} {b : Pattern} :
    (u, r) ∈ (seq (many p) b).fits s ↔
      ∃ a v m, u = some a :: v ∧ s = a ++ m ∧ (∀ c ∈ a, p c = true) ∧ (v, r) ∈ b.fits m := by
  simp only [mem_fits_seq, mem_fits_many]
  constructor
  · rintro ⟨_, v, m, rfl, ⟨a, rfl, hs, ha⟩, hm⟩
    exact ⟨a, v, m, rfl, hs, ha, hm⟩
  · rintro ⟨a, v, m, rfl, hs, ha, hm⟩
    exact ⟨[some a], v, m, rfl, ⟨a, rfl, hs, ha⟩, hm⟩

theorem mem_fits_optional {a : Pattern} :
    (u, r) ∈ (optional a).fits s ↔
      (u, r) ∈ a.fits s ∨ u = List.replicate a.captures none ∧ r = s := by
  rw [fits, List.mem_append, List.mem_singleton, Prod.mk.injEq]

end Mem

end Pattern

/-- The end of the pattern of tokens: after a comma anything up to a closing bracket, or just the
bracket. -/
def fallbackPattern : Pattern :=
  .seq (.optional (.seq (.literal [',']) (.many (· ≠ ')')))) (.literal [')'])

/-- The pattern of tokens: `ref(`, anything up to a comma, and anything up to another comma or a
closing bracket. -/
def tokenPattern : Pattern :=
  .seq (.literal tokenStart) <| .seq (.many (· ≠ ',')) <| .seq (.literal [',']) <|
    .seq (.many fun c => c ≠ ')' && c ≠ ',') fallbackPattern

namespace RefToken

/-! ## Tokens in form -/

/-- Each part of the token is free of the characters that would end it. -/
structure InForm (t : RefToken) : Prop where
  selector : ',' ∉ t.selector
  property : ',' ∉ t.property ∧ ')' ∉ t.property
  fallback : ∀ f ∈ t.fallback, ')' ∉ f

/-- What stands between the comma behind the selector part and the closing bracket. -/
def inner (t : RefToken) : Text :=
  match t.fallback with
  | none => t.property
  | some f => t.property ++ ',' :: f

theorem tail_eq (t : RefToken) : t.tail = t.selector ++ ',' :: (t.inner ++ [')']) := by
  obtain ⟨a, b, c⟩ := t
  cases c <;> simp [tail, inner]

theorem InForm.not_mem_inner {t : RefToken} (h : t.InForm) : ')' ∉ t.inner := by
  obtain ⟨a, b, c⟩ := t
  cases c with
  | none => exact h.property.2
  | some f => simpa [inner, h.property.2] using h.fallback f rfl

/-- The second comma comes with the fallback part. -/
theorem InForm.fallback_eq_none_iff {t : RefToken} (h : t.InForm) :
    t.fallback = none ↔ ',' ∉ t.inner := by
  obtain ⟨a, b, c⟩ := t
  cases c with
  | none => simpa [inner] using h.property.1
  | some f => simp [inner]

/-- A token is read from the front of a text exactly when it stands there in form. -/
theorem read?_eq_some_iff {s rest : Text} {t : RefToken} :
    read? s = some (t, rest) ↔ t.InForm ∧ s = t.tail ++ rest := by
  constructor
  · intro h
    refine ⟨?_, eq_of_read? h⟩
    simp only [read?, Option.bind_eq_some_iff, Option.map_eq_some_iff, Prod.exists] at h
    obtain ⟨a, s, hcomma, inner, rest', hbracket, hparts⟩ := h
    have hselector := (Text.breakAt?_eq_some_iff.mp hcomma).2
    have hinner := (Text.breakAt?_eq_some_iff.mp hbracket).2
    split at hparts
    · next hnone =>
      cases hparts
      refine ⟨hselector, ⟨Text.breakAt?_eq_none_iff.mp hnone, hinner⟩, fun g hg => ?_⟩
      cases hg
    · next property f hsome =>
      cases hparts
      obtain ⟨rfl, hproperty⟩ := Text.breakAt?_eq_some_iff.mp hsome
      simp only [List.mem_append, List.mem_cons, not_or] at hinner
      refine ⟨hselector, ⟨hproperty, hinner.1⟩, fun g hg => ?_⟩
      obtain rfl := Option.some.inj hg
      exact hinner.2.2
  · rintro ⟨h, rfl⟩
    have hcomma : Text.breakAt? ',' (t.tail ++ rest) = some (t.selector, t.inner ++ ')' :: rest) :=
      Text.breakAt?_eq_some_iff.mpr ⟨by simp [tail_eq], h.selector⟩
    have hbracket : Text.breakAt? ')' (t.inner ++ ')' :: rest) = some (t.inner, rest) :=
      Text.breakAt?_eq_some_iff.mpr ⟨rfl, h.not_mem_inner⟩
    simp only [read?, hcomma, hbracket, Option.bind_some, Option.map_some]
    obtain ⟨a, b, c⟩ := t
    cases c with
    | none =>
      have hnone : Text.breakAt? ',' (inner ⟨a, b, none⟩) = none :=
        Text.breakAt?_eq_none_iff.mpr h.property.1
      simp only [hnone]
      rfl
    | some f =>
      have hsome : Text.breakAt? ',' (inner ⟨a, b, some f⟩) = some (b, f) :=
        Text.breakAt?_eq_some_iff.mpr ⟨rfl, h.property.1⟩
      simp only [hsome]

/-- A comma with a closing bracket behind it is all that a token needs. -/
theorem isSome_read?_iff {s : Text} :
    (read? s).isSome = true ↔ ∃ a b c, s = a ++ ',' :: (b ++ ')' :: c) := by
  constructor
  · intro h
    obtain ⟨⟨t, rest⟩, h⟩ := Option.isSome_iff_exists.mp h
    exact ⟨t.selector, t.inner, rest, by simp [eq_of_read? h, tail_eq]⟩
  · rintro ⟨a, b, c, rfl⟩
    cases hcomma : Text.breakAt? ',' (a ++ ',' :: (b ++ ')' :: c)) with
    | none => simpa using Text.breakAt?_eq_none_iff.mp hcomma
    | some x =>
      obtain ⟨a', s⟩ := x
      obtain ⟨heq, hfirst⟩ := Text.breakAt?_eq_some_iff.mp hcomma
      -- the first comma is not behind the given one, so the bracket is behind both
      have hbracket : ')' ∈ s := by
        rcases List.append_eq_append_iff.mp heq with ⟨l, rfl, hl⟩ | ⟨l, rfl, hl⟩
        · cases l with
          | nil =>
            obtain ⟨-, rfl⟩ := List.cons.inj hl
            simp
          | cons d l =>
            obtain ⟨rfl, -⟩ := List.cons.inj hl
            simp at hfirst
        · cases l with
          | nil =>
            obtain ⟨-, rfl⟩ := List.cons.inj hl
            simp
          | cons d l =>
            obtain ⟨-, rfl⟩ := List.cons.inj hl
            simp
      cases hread : Text.breakAt? ')' s with
      | none => exact absurd hbracket (Text.breakAt?_eq_none_iff.mp hread)
      | some y => simp [read?, hcomma, hread]

/-- Of two ways to cut a text in two, the later one leaves an end of what the earlier one leaves. -/
theorem isSuffix_of_append_eq {a b x y : Text} (h : a ++ b = x ++ y) (hle : a.length ≤ x.length) :
    y <:+ b := by
  have hy : y <:+ x ++ y := List.suffix_append x y
  have hb : b <:+ x ++ y := ⟨a, h⟩
  have hlength := congrArg List.length h
  simp only [List.length_append] at hlength
  exact List.suffix_of_suffix_length_le hy hb (by omega)

/-- What a later place needs for a token is there for an earlier one too. -/
theorem isSome_read?_of_isSuffix {s r : Text} (hs : s <:+ r) (h : (read? s).isSome = true) :
    (read? r).isSome = true := by
  obtain ⟨l, rfl⟩ := hs
  obtain ⟨a, b, c, rfl⟩ := isSome_read?_iff.mp h
  exact isSome_read?_iff.mpr ⟨l ++ a, b, c, by simp⟩

/-- The token of a value is the one in form at the first `ref(`. -/
theorem find?_eq_some_iff {value before after : Text} {t : RefToken} :
    find? value = some (before, t, after) ↔
      t.InForm ∧ value = before ++ t.text ++ after ∧
        ∀ a b, value = a ++ tokenStart ++ b → before.length ≤ a.length := by
  constructor
  · intro h
    refine ⟨?_, eq_of_find? h, fun a b => Text.length_le_of_cut? (cut?_tokenStart h)⟩
    simp only [find?, Option.bind_eq_some_iff, Option.map_eq_some_iff, Prod.exists,
      Prod.mk.injEq] at h
    obtain ⟨_, _, -, _, _, hread, -, rfl, -⟩ := h
    exact (read?_eq_some_iff.mp hread).1
  · rintro ⟨hform, heq, hfirst⟩
    have hcut : Text.cut? tokenStart value = some (before, t.tail ++ after) :=
      Text.cut?_eq_some_iff.mpr ⟨by simp [heq, text], hfirst⟩
    simp only [find?, hcut, Option.bind_some, read?_eq_some_iff.mpr ⟨hform, rfl⟩, Option.map_some]

/-- A value has a token as soon as one stands anywhere in it. -/
theorem isSome_find?_iff {value : Text} :
    (find? value).isSome = true ↔
      ∃ before t after, InForm t ∧ value = before ++ t.text ++ after := by
  constructor
  · intro h
    obtain ⟨⟨before, t, after⟩, h⟩ := Option.isSome_iff_exists.mp h
    obtain ⟨hform, heq, -⟩ := find?_eq_some_iff.mp h
    exact ⟨before, t, after, hform, heq⟩
  · rintro ⟨before, t, after, hform, rfl⟩
    have hstart : before ++ t.text ++ after = before ++ tokenStart ++ (t.tail ++ after) := by
      simp [text]
    cases hcut : Text.cut? tokenStart (before ++ t.text ++ after) with
    | none => exact absurd ⟨before, t.tail ++ after, hstart.symm⟩ (Text.cut?_eq_none_iff.mp hcut)
    | some x =>
      obtain ⟨a, b⟩ := x
      have hle := Text.length_le_of_cut? hcut hstart
      have hsuffix : t.tail ++ after <:+ b :=
        isSuffix_of_append_eq ((Text.eq_of_cut? hcut).symm.trans hstart) (by simpa using hle)
      have hread := isSome_read?_of_isSuffix hsuffix
        (by rw [read?_eq_some_iff.mpr ⟨hform, rfl⟩]; rfl)
      rw [find?, hcut, Option.bind_some, Option.isSome_map]
      exact hread

/-! ## Tokens by the pattern -/

def captures (t : RefToken) : List (Option Text) := [some t.selector, some t.property, t.fallback]

theorem forall_ne_iff {c : Char} {w : Text} : (∀ d ∈ w, decide (d ≠ c) = true) ↔ c ∉ w :=
  ⟨fun h hc => by simpa using h c hc, fun h d hd => decide_eq_true fun hdc => h (hdc ▸ hd)⟩

/-- What stands behind the property part. -/
def close : Option Text → Text
  | none => [')']
  | some f => ',' :: f ++ [')']

theorem mem_fits_fallbackPattern {s rest : Text} {u : List (Option Text)} :
    (u, rest) ∈ fallbackPattern.fits s ↔
      ∃ f? : Option Text, (∀ f ∈ f?, ')' ∉ f) ∧ u = [f?] ∧ s = close f? ++ rest := by
  simp only [fallbackPattern, Pattern.mem_fits_seq, Pattern.mem_fits_optional,
    Pattern.mem_fits_literal, Pattern.mem_fits_many, forall_ne_iff]
  constructor
  · rintro ⟨_, _, m, rfl, ⟨_, _, _, rfl, ⟨rfl, rfl⟩, f, rfl, rfl, hf⟩ | ⟨rfl, rfl⟩, rfl, rfl⟩
    · refine ⟨some f, fun g hg => ?_, rfl, by simp [close]⟩
      obtain rfl := Option.some.inj hg
      exact hf
    · exact ⟨none, nofun, rfl, rfl⟩
  · rintro ⟨f?, hf, rfl, rfl⟩
    cases f? with
    | none => exact ⟨[none], [], _, rfl, .inr ⟨rfl, rfl⟩, rfl, rfl⟩
    | some f =>
      exact ⟨[some f], [], ')' :: rest, rfl,
        .inl ⟨[], [some f], f ++ ')' :: rest, rfl, ⟨rfl, by simp [close]⟩, f, rfl, rfl, hf f rfl⟩,
        rfl, rfl⟩

theorem captures_inj {t t' : RefToken} : t.captures = t'.captures ↔ t = t' := by
  obtain ⟨a, b, c⟩ := t
  obtain ⟨a', b', c'⟩ := t'
  simp [captures]

/-- The pattern fits exactly the tokens in form. -/
theorem mem_fits_tokenPattern {s rest : Text} {u : List (Option Text)} :
    (u, rest) ∈ tokenPattern.fits s ↔
      ∃ t : RefToken, t.InForm ∧ u = t.captures ∧ s = t.text ++ rest := by
  have hclasses {w : Text} :
      (∀ d ∈ w, (d ≠ ')' && d ≠ ',') = true) ↔ ',' ∉ w ∧ ')' ∉ w := by
    simp only [Bool.and_eq_true, forall_and, forall_ne_iff]
    exact and_comm
  have htext (a b : Text) (f? : Option Text) :
      (⟨a, b, f?⟩ : RefToken).text = tokenStart ++ (a ++ ([','] ++ (b ++ close f?))) := by
    cases f? <;> simp [text, tail, close]
  simp only [tokenPattern, Pattern.mem_fits_literal_seq, Pattern.mem_fits_many_seq,
    mem_fits_fallbackPattern, forall_ne_iff, hclasses]
  constructor
  · rintro ⟨_, rfl, a, _, _, rfl, rfl, ha, _, rfl, b, _, _, rfl, rfl, hb, f?, hf, rfl, rfl⟩
    exact ⟨⟨a, b, f?⟩, ⟨ha, hb, hf⟩, rfl, by rw [htext]; simp⟩
  · rintro ⟨⟨a, b, f?⟩, ⟨ha, hb, hf⟩, rfl, rfl⟩
    rw [htext]
    exact ⟨_, List.append_assoc _ _ _, a, _, _, rfl, List.append_assoc _ _ _, ha, _,
      List.append_assoc _ _ _, b, _, _, rfl, List.append_assoc _ _ _, hb, f?, hf, rfl, rfl⟩

/-- There is one way at most to find a token at a place. -/
theorem head?_fits_tokenPattern {s : Text} :
    (tokenPattern.fits (tokenStart ++ s)).head? =
      (read? s).map fun (t, rest) => (t.captures, rest) := by
  have hread {u : List (Option Text)} {rest : Text}
      (hu : (u, rest) ∈ tokenPattern.fits (tokenStart ++ s)) :
      ∃ t, read? s = some (t, rest) ∧ u = t.captures := by
    obtain ⟨t, hform, rfl, heq⟩ := mem_fits_tokenPattern.mp hu
    rw [text, List.append_assoc] at heq
    exact ⟨t, read?_eq_some_iff.mpr ⟨hform, List.append_cancel_left heq⟩, rfl⟩
  cases hhead : (tokenPattern.fits (tokenStart ++ s)).head? with
  | some x =>
    obtain ⟨u, rest⟩ := x
    obtain ⟨t, ht, rfl⟩ := hread (List.mem_of_head? hhead)
    rw [ht]
    rfl
  | none =>
    rw [List.head?_eq_none_iff] at hhead
    cases hs : read? s with
    | none => rfl
    | some x =>
      obtain ⟨t, rest⟩ := x
      obtain ⟨hform, rfl⟩ := read?_eq_some_iff.mp hs
      have hmem : (t.captures, rest) ∈ tokenPattern.fits (tokenStart ++ (t.tail ++ rest)) :=
        mem_fits_tokenPattern.mpr ⟨t, hform, rfl, by simp [text]⟩
      rw [hhead] at hmem
      cases hmem

/-- The scan finds what the pattern finds. -/
theorem search?_tokenPattern (value : Text) :
    tokenPattern.search? value =
      (find? value).map fun (before, t, after) => (before, t.captures, after) := by
  induction value with
  | nil => rfl
  | cons c s ih =>
    rw [Pattern.search?, find?, Text.cut?]
    cases hp : tokenStart.isPrefixOf? (c :: s) with
    | some r =>
      have hs := Text.isPrefixOf?_eq_some_iff.mp hp
      rw [hs, head?_fits_tokenPattern]
      cases hread : read? r with
      | some x =>
        simp only [Option.map_some, Option.bind_some, hread]
      | none =>
        -- a token behind the first `ref(` would be one at it too
        simp only [Option.map_none, Option.bind_some, hread]
        rw [Option.map_eq_none_iff, ← Option.not_isSome_iff_eq_none]
        intro hsome
        rw [ih, Option.isSome_map, isSome_find?_iff] at hsome
        obtain ⟨before, t, after, hform, rfl⟩ := hsome
        have heq : tokenStart ++ r = (c :: before ++ tokenStart) ++ (t.tail ++ after) := by
          rw [← hs]
          simp [text]
        have hsome := isSome_read?_of_isSuffix
          (isSuffix_of_append_eq heq (by simp [tokenStart]))
          (by rw [read?_eq_some_iff.mpr ⟨hform, rfl⟩]; rfl)
        rw [hread] at hsome
        cases hsome
    | none =>
      have hnone : tokenPattern.fits (c :: s) = [] := by
        refine List.eq_nil_iff_forall_not_mem.mpr fun x hx => ?_
        obtain ⟨t, -, -, heq⟩ := mem_fits_tokenPattern.mp hx
        rw [text, List.append_assoc] at heq
        rw [Text.isPrefixOf?_eq_some_iff.mpr heq] at hp
        cases hp
      simp only [hnone, List.head?_nil, ih, find?]
      cases Text.cut? tokenStart s with
      | none => rfl
      | some x => cases hread : read? x.2 <;> simp [hread]

end RefToken

/-! ## References -/

namespace Reference

theorem ofValue?_eq_some_iff {value owner : Text} {place : Place} {r : Reference} :
    ofValue? value owner place = some r ↔
      ∃ before t after, RefToken.find? value = some (before, t, after) ∧
        r = t.reference owner place := by
  simp only [ofValue?, Option.map_eq_some_iff, Prod.exists, eq_comm (a := r)]

/-- The grammar of tokens.  A value has a reference exactly when some piece of it is a token in form.
The token is the one at the first `ref(`; it ends with the first closing bracket behind its first
comma, and the reference is made of its parts.  It is also what the pattern finds that is tried from
left to right. -/
theorem ofValue?_grammar (value owner : Text) (place : Place) :
    ((ofValue? value owner place).isSome = true ↔
      ∃ before t after, RefToken.InForm t ∧ value = before ++ t.text ++ after) ∧
    (∀ r, ofValue? value owner place = some r ↔
      ∃ before t after, RefToken.InForm t ∧ value = before ++ t.text ++ after ∧
        (∀ a b, value = a ++ tokenStart ++ b → before.length ≤ a.length) ∧
        (∃ inner, t.text = tokenStart ++ t.selector ++ ',' :: (inner ++ [')']) ∧ ')' ∉ inner ∧
          (t.fallback = none ↔ ',' ∉ inner)) ∧
        r = { target :=
                ⟨(Text.trim t.selector).flatMap fun c => if c = '&' then owner else [c],
                  Text.trim t.property⟩
              fallback := (t.fallback.map Text.trim).filter (· ≠ [])
              token := t.text
              place := place }) ∧
    ∀ r, ofValue? value owner place = some r ↔
      ∃ (before : Text) (t : RefToken) (after : Text),
        tokenPattern.search? value = some (before, t.captures, after) ∧
        r = t.reference owner place := by
  refine ⟨?_, fun r => ?_, fun r => ?_⟩
  · rw [ofValue?, Option.isSome_map]
    exact RefToken.isSome_find?_iff
  · rw [ofValue?_eq_some_iff]
    constructor
    · rintro ⟨before, t, after, hfind, rfl⟩
      obtain ⟨hform, heq, hfirst⟩ := RefToken.find?_eq_some_iff.mp hfind
      refine ⟨before, t, after, hform, heq, hfirst, ⟨t.inner, ?_, hform.not_mem_inner,
        hform.fallback_eq_none_iff⟩, rfl⟩
      rw [RefToken.text, RefToken.tail_eq, List.append_assoc]
    · rintro ⟨before, t, after, hform, heq, hfirst, -, rfl⟩
      exact ⟨before, t, after, RefToken.find?_eq_some_iff.mpr ⟨hform, heq, hfirst⟩, rfl⟩
  · rw [ofValue?_eq_some_iff, RefToken.search?_tokenPattern]
    constructor
    · rintro ⟨before, t, after, hfind, rfl⟩
      exact ⟨before, t, after, by rw [hfind]; rfl, rfl⟩
    · rintro ⟨before, t, after, hsearch, rfl⟩
      obtain ⟨⟨before', t', after'⟩, hfind, heq⟩ := Option.map_eq_some_iff.mp hsearch
      simp only [Prod.mk.injEq, RefToken.captures_inj] at heq
      obtain ⟨rfl, rfl, rfl⟩ := heq
      exact ⟨_, _, _, hfind, rfl⟩

/-- The selector part goes over brackets, and the fallback part stops at the first one. -/
example :
    RefToken.find? "1px ref(ref(.a), top , rgb(0, 0)) 2px".toList =
      some ("1px ".toList, ⟨"ref(.a)".toList, " top ".toList, some " rgb(0, 0".toList⟩,
        ") 2px".toList) := by
  decide

/-- Without a comma the first `ref(` is no token, but what it lacks may stand behind a later one. -/
example :
    RefToken.find? "ref(.a) ref(.b, top)".toList =
      some ([], ⟨".a) ref(.b".toList, " top".toList, none⟩, []) := by
  decide

end Reference

end StyleRef

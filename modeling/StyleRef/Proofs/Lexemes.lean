import StyleRef.Proofs.Cutting

/-
# What the kind of a token says of its text

Every token of a text is one step of the scanner, so its kind and the piece that
it was cut from belong together: a token that stands for a single character is
that character, white space is nothing but white space, a comment begins with a
slash, and a name without escapes is written as it is read.  None of this holds
of tokens put together by hand.

What stands behind a token takes no part in the tokens before it, so the tokens
from any place on are those of the text from there on (`eq_lex_of_isSuffix`).
-/

namespace StyleRef

namespace Css

/-! ## Classes of kinds -/

namespace Kind

def isNumeric : Kind → Bool
  | .number _ _ | .percentage | .dimension _ _ => true
  | _ => false

def isNamed : Kind → Bool
  | .ident _ | .function _ | .url | .badUrl => true
  | _ => false

def isPunctuation : Kind → Bool
  | .colon | .semicolon | .comma | .opening _ | .closing _ | .delim _ => true
  | _ => false

/-- The kinds that begin with a sign: punctuation, and what a sign tells from names and numbers. -/
def isSign : Kind → Bool
  | .comment | .atKeyword _ | .idHash _ | .hash _ | .string | .badString | .matcher | .cdo => true
  | k => k.isPunctuation

theorem isNamed_eq_false {k : Kind} (h : k.isNumeric = true ∨ k.isSign = true) :
    k.isNamed = false := by
  cases k <;> first | rfl | rcases h with h | h <;> cases h

theorem isSign_eq_false {k : Kind} (h : k.isNumeric = true ∨ k.isNamed = true) :
    k.isSign = false := by
  cases k <;> first | rfl | rcases h with h | h <;> cases h

theorem isSign_of_isPunctuation {k : Kind} (h : k.isPunctuation = true) : k.isSign = true := by
  cases k <;> first | rfl | cases h

end Kind

theorem isPunctuation_punctuation (c : Char) : (punctuation c).isPunctuation = true := by
  unfold punctuation
  split <;> rfl

theorem isNumeric_numeric (s : Text) : (numeric s).1.isNumeric = true := by
  simp only [numeric]
  generalize (if startsWith _ s = true then 1 else 0) = sign
  split
  · rfl
  · split <;> rfl

/-- What is read behind `url(` is an address, be it spoilt. -/
theorem urlFrom_kind (skip : Nat) (s : Text) :
    (urlFrom skip s).1 = .url ∨ (urlFrom skip s).1 = .badUrl := by
  induction s generalizing skip with
  | nil => cases skip <;> exact .inl rfl
  | cons c s ih =>
    cases skip with
    | succ skip => exact ih skip
    | zero =>
      simp only [urlFrom]
      split
      · split
        · exact .inl rfl
        · split
          · exact .inl rfl
          · exact .inr rfl
      · split
        · exact .inl rfl
        · split
          · exact .inr rfl
          · exact ih _

theorem url?_kind {s : Text} {k : Kind} {n : Nat} (h : url? s = some (k, n)) :
    k = .url ∨ k = .badUrl := by
  simp only [url?] at h
  split at h
  · cases h
  · cases h
    exact urlFrom_kind 0 _

/-- A name makes an identifier, or an opening bracket stands behind it and the token is longer. -/
theorem nameLike_cases (s : Text) :
    nameLike s = (.ident (name s).1, (name s).2) ∨
      ((nameLike s).1.isNamed = true ∧ (∀ word, (nameLike s).1 ≠ .ident word) ∧
        (name s).2 < (nameLike s).2 ∧ (s.drop (name s).2).head? = some '(') := by
  simp only [nameLike]
  split
  · next hbracket =>
    refine .inr ?_
    split
    · next k m hurl =>
      have hkind : k = .url ∨ k = .badUrl := by
        split at hurl
        · exact url?_kind hurl
        · cases hurl
      refine ⟨?_, ?_, by simp only; omega, hbracket⟩
      · rcases hkind with rfl | rfl <;> rfl
      · rcases hkind with rfl | rfl <;> intro word hword <;> cases hword
    · refine ⟨rfl, fun word hword => ?_, Nat.lt_succ_self _, hbracket⟩
      cases hword
  · exact .inl rfl

theorem isNamed_nameLike (s : Text) : (nameLike s).1.isNamed = true := by
  rcases nameLike_cases s with h | h
  · rw [h]
    rfl
  · exact h.1

/-! ## Single steps of the scanner -/

section Scan
variable {c : Char} {s : Text}

/-- What the scanner finds at the front of `c :: s`: white space, a number, a name, or a sign. -/
theorem scan_cases (c : Char) (s : Text) :
    (isSpace c = true ∧ scan c s = (.space, (s.takeWhile isSpace).length)) ∨
      (scan c s).1.isNumeric = true ∨ scan c s = (.cdc, 2) ∨
      ((scan c s).1.isNamed = true ∧
        scan c s = ((nameLike (c :: s)).1, (nameLike (c :: s)).2 - 1)) ∨
      scan c s = sign c s := by
  unfold scan
  split
  · next h => exact .inl ⟨h, rfl⟩
  · split
    · exact .inr (.inl (isNumeric_numeric (c :: s)))
    · split
      · exact .inr (.inr (.inl rfl))
      · split
        · exact .inr (.inr (.inr (.inl ⟨isNamed_nameLike (c :: s), rfl⟩)))
        · exact .inr (.inr (.inr (.inr rfl)))

/-- A sign is a single character that stands for itself, or a token of another kind; a comment begins
with a slash. -/
theorem sign_cases (c : Char) (s : Text) :
    sign c s = (punctuation c, 0) ∨
      ((sign c s).1.isSign = true ∧ (sign c s).1.isPunctuation = false ∧
        ((sign c s).1 = .comment → c = '/')) := by
  unfold sign
  split
  · generalize stringFrom c 0 s = x
    obtain ⟨n, good⟩ := x
    cases good <;> exact .inr ⟨rfl, rfl, nofun⟩
  iterate 3
    split
    · exact .inr ⟨rfl, rfl, nofun⟩
  split
  · next hslash =>
    exact .inr ⟨rfl, rfl, fun _ => of_decide_eq_true (Bool.and_eq_true_iff.mp hslash).1⟩
  iterate 2
    split
    · exact .inr ⟨rfl, rfl, nofun⟩
  exact .inl rfl

theorem isSign_sign (c : Char) (s : Text) : (sign c s).1.isSign = true := by
  rcases sign_cases c s with h | ⟨h, -⟩
  · rw [h]
    exact Kind.isSign_of_isPunctuation (isPunctuation_punctuation c)
  · exact h

theorem scan_of_space (h : (scan c s).1 = .space) :
    isSpace c = true ∧ scan c s = (.space, (s.takeWhile isSpace).length) := by
  rcases scan_cases c s with hspace | hkind | hscan | ⟨hkind, -⟩ | hscan
  · exact hspace
  · rw [h] at hkind
    cases hkind
  · rw [hscan] at h
    cases h
  · rw [h] at hkind
    cases hkind
  · have hsign := isSign_sign c s
    rw [← hscan, h] at hsign
    cases hsign

theorem scan_of_isNamed (h : (scan c s).1.isNamed = true) :
    scan c s = ((nameLike (c :: s)).1, (nameLike (c :: s)).2 - 1) := by
  rcases scan_cases c s with ⟨-, hscan⟩ | hkind | hscan | ⟨-, hscan⟩ | hscan
  · rw [hscan] at h
    cases h
  · rw [Kind.isNamed_eq_false (.inl hkind)] at h
    cases h
  · rw [hscan] at h
    cases h
  · exact hscan
  · rw [hscan, Kind.isNamed_eq_false (.inr (isSign_sign c s))] at h
    cases h

theorem scan_of_isSign (h : (scan c s).1.isSign = true) : scan c s = sign c s := by
  rcases scan_cases c s with ⟨-, hscan⟩ | hkind | hscan | ⟨hkind, -⟩ | hscan
  · rw [hscan] at h
    cases h
  · rw [Kind.isSign_eq_false (.inl hkind)] at h
    cases h
  · rw [hscan] at h
    cases h
  · rw [Kind.isSign_eq_false (.inr hkind)] at h
    cases h
  · exact hscan

/-- A single character that stands for itself is a token of its own. -/
theorem scan_of_isPunctuation (h : (scan c s).1.isPunctuation = true) :
    scan c s = (punctuation c, 0) := by
  have hscan := scan_of_isSign (Kind.isSign_of_isPunctuation h)
  rw [hscan] at h ⊢
  rcases sign_cases c s with hsign | ⟨-, hnot, -⟩
  · exact hsign
  · rw [hnot] at h
    cases h

theorem eq_slash_of_comment (h : (scan c s).1 = .comment) : c = '/' := by
  rw [scan_of_isSign (by rw [h]; rfl)] at h
  rcases sign_cases c s with hsign | ⟨-, -, hslash⟩
  · have hpunctuation := isPunctuation_punctuation c
    rw [hsign] at h
    rw [show punctuation c = .comment from h] at hpunctuation
    cases hpunctuation
  · exact hslash h

end Scan

/-! ## Tokens of a text -/

section Tokens
variable {s : Text} {t : Token}

theorem exists_scan_of_mem_lex (h : t ∈ lex s) :
    ∃ c r, t = ⟨(scan c r).1, c :: r.take (scan c r).2⟩ := by
  suffices ∀ skip, t ∈ lexFrom skip s → ∃ c r, t = ⟨(scan c r).1, c :: r.take (scan c r).2⟩ from
    this 0 h
  clear h
  induction s with
  | nil => exact fun skip h => by cases skip <;> cases h
  | cons c s ih =>
    intro skip h
    cases skip with
    | succ skip => exact ih skip h
    | zero =>
      rcases List.mem_cons.mp h with rfl | h
      · exact ⟨c, s, rfl⟩
      · exact ih _ h

theorem exists_eq_punctuation (h : t ∈ lex s) (ht : t.kind.isPunctuation = true) :
    ∃ c, t = ⟨punctuation c, [c]⟩ := by
  obtain ⟨c, r, rfl⟩ := exists_scan_of_mem_lex h
  exact ⟨c, by rw [scan_of_isPunctuation ht, List.take_zero]⟩

/-- The commas among the tokens are the commas of the text that stand for themselves. -/
theorem text_eq_of_isComma (h : t ∈ lex s) (ht : t.isComma = true) : t.text = [','] := by
  have hkind : t.kind = .comma := of_decide_eq_true ht
  obtain ⟨c, rfl⟩ := exists_eq_punctuation h (by rw [hkind]; rfl)
  simp only [punctuation] at hkind
  split at hkind <;> first | rfl | cases hkind

theorem text_eq_of_isDelim {c : Char} (h : t ∈ lex s) (ht : t.kind = .delim c) : t.text = [c] := by
  obtain ⟨d, rfl⟩ := exists_eq_punctuation h (by rw [ht]; rfl)
  simp only [punctuation] at ht
  split at ht <;> cases ht
  rfl

/-- White space is nothing but white space. -/
theorem isSpace_of_mem_text (h : t ∈ lex s) (ht : t.kind = .space) :
    ∀ c ∈ t.text, isSpace c = true := by
  obtain ⟨c, r, rfl⟩ := exists_scan_of_mem_lex h
  obtain ⟨hc, hscan⟩ := scan_of_space ht
  have htake : r.take (r.takeWhile isSpace).length = r.takeWhile isSpace :=
    (List.prefix_iff_eq_take.mp (List.takeWhile_prefix isSpace)).symm
  rw [hscan, htake]
  exact List.forall_mem_cons.mpr ⟨hc, fun d hd => List.all_eq_true.mp List.all_takeWhile d hd⟩

theorem kind_eq_space {c : Char} (h : t ∈ lex s) (hc : c ∈ t.text.head?)
    (hspace : isSpace c = true) : t.kind = .space := by
  obtain ⟨d, r, rfl⟩ := exists_scan_of_mem_lex h
  obtain rfl : d = c := Option.some.inj hc
  simp only [scan, hspace, ↓reduceIte]

theorem slash_mem_text (h : t ∈ lex s) (ht : t.kind = .comment) : '/' ∈ t.text := by
  obtain ⟨c, r, rfl⟩ := exists_scan_of_mem_lex h
  rw [eq_slash_of_comment ht]
  exact List.mem_cons_self

end Tokens

/-! ## Names without escapes -/

/-- A name in which nothing stands for something else is written as it is read. -/
theorem nameFrom_eq_take {s : Text}
    (h : ∀ c ∈ s.take (nameFrom 0 s).2, c ≠ '\\' ∧ c ≠ '\x00') :
    (nameFrom 0 s).1 = s.take (nameFrom 0 s).2 := by
  induction s with
  | nil => rfl
  | cons c s ih =>
    cases hchar : nameChar? (c :: s) with
    | none => simp [nameFrom, hchar]
    | some x =>
      obtain ⟨d, k⟩ := x
      simp only [nameFrom, hchar, List.take_succ_cons, List.forall_mem_cons] at h ⊢
      obtain ⟨⟨hslash, hzero⟩, hrest⟩ := h
      simp only [nameChar?, hslash, hzero, ↓reduceIte] at hchar
      split at hchar
      · cases hchar
        exact congrArg (c :: ·) (ih hrest)
      · cases hchar

theorem text_eq_of_ident {s : Text} {t : Token} {word : Text} (h : t ∈ lex s)
    (ht : t.kind = .ident word) (hne : word ≠ [])
    (hplain : ∀ c ∈ t.text, c ≠ '\\' ∧ c ≠ '\x00') : t.text = word := by
  obtain ⟨c, r, rfl⟩ := exists_scan_of_mem_lex h
  simp only at ht hplain ⊢
  have hscan := scan_of_isNamed (c := c) (s := r) (by rw [ht]; rfl)
  rcases nameLike_cases (c :: r) with hname | ⟨-, hkind, -⟩
  · rw [hscan, hname] at ht hplain
    rw [hscan, hname]
    obtain rfl : (name (c :: r)).1 = word := Kind.ident.inj ht
    -- the first character belongs to the name, or there would be none
    obtain ⟨k, hk⟩ : ∃ k, (name (c :: r)).2 = k + 1 := by
      cases hchar : nameChar? (c :: r) with
      | none => exact absurd (by simp [name, nameFrom, hchar]) hne
      | some x => exact ⟨(nameFrom (x.2 - 1) r).2, by simp only [name, nameFrom, hchar]⟩
    have htake : c :: r.take k = (c :: r).take (name (c :: r)).2 := by rw [hk]; rfl
    simp only [hk, Nat.add_sub_cancel] at hplain ⊢
    rw [htake] at hplain ⊢
    exact (nameFrom_eq_take hplain).symm
  · rw [hscan] at ht
    exact absurd ht (hkind word)

/-! ## Tokens from some place on -/

/-- The tokens from any place on are those of the text from there on. -/
theorem eq_lex_of_isSuffix {s : Text} {ts : List Token} (h : ts <:+ lex s) :
    ts = lex (textOf ts) := by
  suffices ∀ skip, ts <:+ lexFrom skip s → ts = lex (textOf ts) from this 0 h
  clear h
  induction s with
  | nil =>
    intro skip h
    obtain rfl : ts = [] := by
      cases skip <;> exact List.suffix_nil.mp h
    rfl
  | cons c s ih =>
    intro skip h
    cases skip with
    | succ skip => exact ih skip h
    | zero =>
      rcases List.suffix_cons_iff.mp h with rfl | h
      · exact congrArg lex (textOf_lex (c :: s)).symm
      · exact ih _ h

end Css

end StyleRef

import StyleRef.Proofs.Lexemes
import StyleRef.Proofs.Marks
import StyleRef.Proofs.Plain
import StyleRef.Proofs.Values

/-
# Importance by tokens and by text

A declaration is important when the last two tokens of its value, gaps apart, are
an exclamation mark and the word `important`.  The reader decides it by text: it
looks for the last exclamation mark, and the word has to make up what is behind it,
blanks apart.

The two agree on an annotation that is *plain*: without comments in it, and with
the word written without escapes.  An annotation that is not plain is missed, for
comments and escapes have characters that the text behind the mark must not have.
The other way round an annotation is seen where there is none if the last
exclamation mark is *hidden* in a token that it does not begin, such as a comment
or a string that the end of the text closes, or a name with an escape.

Main statement: `Stylesheet.parse_importance`.
-/

namespace StyleRef

namespace Css

/-! ## Annotations at the end -/

/-- The last tokens of a value, from the mark on. -/
structure AnnotatedEnd where
  mark : Token
  between : List Token
  word : Token
  behind : List Token
deriving DecidableEq

namespace AnnotatedEnd

def tokens (a : AnnotatedEnd) : List Token := a.mark :: (a.between ++ a.word :: a.behind)

/-- The mark and the word, with gaps between them and behind. -/
structure Valid (a : AnnotatedEnd) : Prop where
  mark : a.mark.isDelim '!' = true
  between : ∀ t ∈ a.between, t.isGap = true
  word : a.word.isWordOf ["important"] = true
  behind : ∀ t ∈ a.behind, t.isGap = true

/-- The gaps are white space, and the word is written as it is read. -/
def Plain (a : AnnotatedEnd) : Prop :=
  (∀ t ∈ a.between ++ a.behind, t.kind = .space) ∧ a.word.kind = .ident a.word.text

instance (a : AnnotatedEnd) : Decidable a.Plain := inferInstanceAs (Decidable (_ ∧ _))

end AnnotatedEnd

def isImportant (vs : List Token) : Bool :=
  match (vs.filter fun t => !t.isGap).reverse with
  | word :: mark :: _ => mark.isDelim '!' && word.isWordOf ["important"]
  | _ => false

theorem not_isGap_of_isDelim {t : Token} {c : Char} (h : t.isDelim c = true) : t.isGap = false := by
  simp [Token.isGap, show t.kind = .delim c from of_decide_eq_true h]

theorem isWordOf_important {t : Token} :
    t.isWordOf ["important"] = true ↔
      ∃ word, t.kind = .ident word ∧ Text.sameIgnoringCase word "important".toList = true := by
  rw [Token.isWordOf]
  split
  · next word hkind => simp [isWord, hkind]
  · next hkind =>
    constructor
    · intro h
      cases h
    · rintro ⟨word, h, -⟩
      exact absurd h (hkind word)

theorem isImportant_iff {vs : List Token} :
    isImportant vs = true ↔ ∃ front, ∃ a : AnnotatedEnd, vs = front ++ a.tokens ∧ a.Valid := by
  have hfilter : (vs.filter fun t => !t.isGap).reverse = vs.reverse.filter fun t => !t.isGap :=
    List.filter_reverse.symm
  rw [isImportant, hfilter]
  constructor
  · intro h
    split at h
    · next word mark rest heq =>
      obtain ⟨hmark, hword⟩ := Bool.and_eq_true_iff.mp h
      obtain ⟨behind, us, hvs, hbehind, -, hus⟩ := List.filter_eq_cons_iff.mp heq
      obtain ⟨between, front, rfl, hbetween, -, -⟩ := List.filter_eq_cons_iff.mp hus
      refine ⟨front.reverse, ⟨mark, between.reverse, word, behind.reverse⟩, ?_, hmark, ?_, hword, ?_⟩
      · rw [← List.reverse_reverse vs, hvs]
        simp [AnnotatedEnd.tokens]
      · simpa using hbetween
      · simpa using hbehind
    · cases h
  · rintro ⟨front, a, rfl, ha⟩
    obtain ⟨word, hkind, -⟩ := isWordOf_important.mp ha.word
    have hword : a.word.isGap = false := by simp [Token.isGap, hkind]
    have hgaps {us : List Token} (hus : ∀ t ∈ us, t.isGap = true) :
        (us.reverse.filter fun t => !t.isGap) = [] := by
      simpa [List.filter_eq_nil_iff] using hus
    simp [AnnotatedEnd.tokens, hgaps ha.behind, hgaps ha.between, hword,
      not_isGap_of_isDelim ha.mark, ha.mark, ha.word]

/-! ## Plain annotations -/

theorem tidy_of_important {w : Text}
    (h : Text.sameIgnoringCase w "important".toList = true) : w.Tidy := by
  have hblank (c : Char) (hc : c ∈ w) : isBlank c = false :=
    isBlank_of_isAlphanum (by simp [Char.isAlphanum, isAlpha_of_important h c hc])
  exact ⟨fun c hc => hblank c (List.mem_of_mem_head? hc),
    fun c hc => hblank c (List.mem_of_getLast? hc)⟩

theorem ne_nil_of_important {w : Text}
    (h : Text.sameIgnoringCase w "important".toList = true) : w ≠ [] := by
  rintro rfl
  revert h
  decide

theorem count_trim {c : Char} (hc : isBlank c = false) (s : Text) :
    (Text.trim s).count c = s.count c := by
  obtain ⟨a, b, hs, ha, hb⟩ := Text.trim_between s
  have hzero {w : Text} (hw : ∀ d ∈ w, isBlank d = true) : w.count c = 0 := by
    refine List.count_eq_zero.mpr fun hmem => ?_
    rw [hw c hmem] at hc
    cases hc
  conv_rhs => rw [hs]
  rw [List.count_append, List.count_append, hzero ha, hzero hb]
  omega

/-- All behind a mark, and nothing else, is split off if it is the word. -/
theorem splitImportant_append_iff {before after : Text} :
    splitImportant (before ++ '!' :: after) = (Text.trim before, true) ↔
      Text.sameIgnoringCase (Text.trim after) "important".toList = true := by
  constructor
  · intro h
    obtain ⟨x, y, htext, hsame⟩ := splitImportant_snd_iff.mp (congrArg Prod.snd h)
    have hlast : '!' ∉ y := not_mem_of_important hsame (by decide)
    rw [htext, splitImportant_mark hsame hlast] at h
    rcases append_eq_append_cons htext with ⟨z, -, rfl⟩ | ⟨z, rfl, hz⟩
    · exact absurd (by simp) hlast
    · cases z with
      | nil => rwa [(List.cons.inj hz).2]
      | cons d z =>
        -- what is split off leaves one mark more than there are before this one
        obtain ⟨rfl, -⟩ := List.cons.inj hz
        have hcount := congrArg (List.count '!') (congrArg Prod.fst h)
        rw [count_trim (by decide), count_trim (by decide), List.count_append,
          List.count_cons_self] at hcount
        omega
  · exact fun h => splitImportant_mark h (not_mem_of_important h (by decide))

section Plain
variable {css : Text} {front : List Token} {a : AnnotatedEnd}

theorem textOf_annotatedEnd (hlex : ∀ t ∈ a.tokens, t ∈ lex css) (ha : a.Valid) :
    textOf (front ++ a.tokens) =
      textOf front ++ '!' :: (textOf a.between ++ a.word.text ++ textOf a.behind) := by
  have hmark : a.mark.text = ['!'] :=
    text_eq_of_isDelim (hlex _ List.mem_cons_self) (of_decide_eq_true ha.mark)
  simp [AnnotatedEnd.tokens, hmark]

theorem AnnotatedEnd.Plain.important (hplain : a.Plain) (hlex : ∀ t ∈ a.tokens, t ∈ lex css)
    (ha : a.Valid) :
    Text.sameIgnoringCase (Text.trim (textOf a.between ++ a.word.text ++ textOf a.behind))
      "important".toList = true := by
  obtain ⟨hspace, hword⟩ := hplain
  obtain ⟨word, hkind, hsame⟩ := isWordOf_important.mp ha.word
  obtain rfl : word = a.word.text := Kind.ident.inj (hkind.symm.trans hword)
  have hblank {us : List Token} (hus : ∀ t ∈ us, t ∈ a.tokens ∧ t.kind = .space) :
      ∀ c ∈ textOf us, isBlank c = true := by
    intro c hc
    obtain ⟨t, ht, hmem⟩ := List.mem_flatMap.mp hc
    exact isBlank_of_isSpace (isSpace_of_mem_text (hlex t (hus t ht).1) (hus t ht).2 c hmem)
  have hbetween : ∀ c ∈ textOf a.between, isBlank c = true := hblank fun t ht =>
    ⟨List.mem_cons_of_mem _ (List.mem_append_left _ ht), hspace t (List.mem_append_left _ ht)⟩
  have hbehind : ∀ c ∈ textOf a.behind, isBlank c = true := hblank fun t ht =>
    ⟨List.mem_cons_of_mem _ (List.mem_append_right _ (List.mem_cons_of_mem _ ht)),
      hspace t (List.mem_append_right _ ht)⟩
  rwa [Text.trim_append hbetween hbehind, Text.trim_eq_self (tidy_of_important hsame)]

/-- Comments and escapes have characters that the text behind the mark must not have. -/
theorem AnnotatedEnd.Valid.plain (ha : a.Valid) (hlex : ∀ t ∈ a.tokens, t ∈ lex css)
    (h : Text.sameIgnoringCase (Text.trim (textOf a.between ++ a.word.text ++ textOf a.behind))
      "important".toList = true) : a.Plain := by
  have hhard {c : Char} (hc : isSoft c = false) {t : Token}
      (ht : t ∈ a.between ++ a.word :: a.behind) : c ∉ t.text := by
    intro hmem
    have hin : c ∈ textOf (a.between ++ a.word :: a.behind) := List.mem_flatMap.mpr ⟨t, ht, hmem⟩
    exact not_mem_of_important h hc (by simpa using hin)
  refine ⟨fun t ht => ?_, ?_⟩
  · have hgap : t.isGap = true := (List.mem_append.mp ht).elim (ha.between t) (ha.behind t)
    have hin : t ∈ a.between ++ a.word :: a.behind := by
      rcases List.mem_append.mp ht with ht | ht <;> simp [ht]
    by_contra hkind
    have hcomment : t.kind = .comment := by simpa [Token.isGap, hkind] using hgap
    exact hhard (by decide) hin (slash_mem_text (hlex t (List.mem_cons_of_mem _ hin)) hcomment)
  · have hin : a.word ∈ a.between ++ a.word :: a.behind := by simp
    obtain ⟨word, hkind, hword⟩ := isWordOf_important.mp ha.word
    have hwritten : a.word.text = word :=
      text_eq_of_ident (hlex _ (List.mem_cons_of_mem _ hin)) hkind (ne_nil_of_important hword)
        fun c hc => ⟨by rintro rfl; exact hhard (by decide) hin hc,
          by rintro rfl; exact hhard (by decide) hin hc⟩
    rw [hwritten]
    exact hkind

/-- An annotation is split off if it is plain. -/
theorem splitImportant_annotatedEnd_iff (hlex : ∀ t ∈ a.tokens, t ∈ lex css) (ha : a.Valid) :
    splitImportant (textOf (front ++ a.tokens)) = (slice front, true) ↔ a.Plain := by
  rw [textOf_annotatedEnd hlex ha, slice, splitImportant_append_iff]
  exact ⟨ha.plain hlex, fun hplain => hplain.important hlex ha⟩

end Plain

/-! ## The word behind a mark -/

theorem name_append_of_letters {w : Text} (hw : ∀ c ∈ w, c.isAlpha = true) (r : Text) :
    name (w ++ r) = (w ++ (name r).1, w.length + (name r).2) := by
  induction w with
  | nil => simp
  | cons c w ih =>
    obtain ⟨hc, hw⟩ := List.forall_mem_cons.mp hw
    have hslash : c ≠ '\\' := ne_of_class hc (by decide)
    have hzero : c ≠ '\x00' := ne_of_class hc (by decide)
    have hname : isNameChar c = true := by simp [isNameChar, isNameStart, hc]
    have ih := ih hw
    simp only [name] at ih ⊢
    simp only [List.cons_append, nameFrom, nameChar?, hslash, hzero, hname, ↓reduceIte,
      Nat.sub_self, ih, List.length_cons, Prod.mk.injEq, true_and]
    omega

theorem scan_of_isAlpha {c : Char} (hc : c.isAlpha = true) (s : Text) :
    scan c s = ((nameLike (c :: s)).1, (nameLike (c :: s)).2 - 1) := by
  have hne {d : Char} (hd : d.isAlpha = false) : c ≠ d := ne_of_class hc hd
  have hnumber : startsNumber (c :: s) = false := by
    simp [startsNumber, not_isDigit_of_isAlpha hc, hne (d := '.') (by decide),
      hne (d := '+') (by decide), hne (d := '-') (by decide)]
  have hstart : startsName (c :: s) = true := by
    simp [startsName, hne (d := '\\') (by decide), hne (d := '-') (by decide), isNameStart, hc]
  simp [scan, isSpace_of_isAlpha hc, hnumber, hne (d := '-') (by decide), hstart]

/-- No name is here, or it begins with a character that is no white space. -/
theorem name_cases (s : Text) :
    name s = ([], 0) ∨ ∃ c ∈ s.head?, isSpace c = false ∧ 0 < (name s).2 := by
  cases s with
  | nil => exact .inl rfl
  | cons c s =>
    cases hchar : nameChar? (c :: s) with
    | none => exact .inl (by simp [name, nameFrom, hchar])
    | some x =>
      refine .inr ⟨c, rfl, ?_, by simp [name, nameFrom, hchar]⟩
      by_contra hspace
      rw [Bool.not_eq_false, isSpace] at hspace
      simp only [Bool.or_eq_true, decide_eq_true_eq] at hspace
      rcases hspace with (((rfl | rfl) | rfl) | rfl) | rfl <;> cases hchar

theorem mem_take_of_head?_drop {s : Text} {c : Char} {n k : Nat} (h : (s.drop n).head? = some c)
    (hk : n < k) : c ∈ s.take k := by
  rw [List.head?_drop] at h
  exact List.mem_of_getElem? (i := n) (by rwa [List.getElem?_take_of_lt hk])

section Behind
variable {css : Text} {ts rest : List Token}

theorem forall_kind_eq_space (hts : ∀ t ∈ ts, t ∈ lex css)
    (h : ∀ c ∈ textOf ts, isSpace c = true) : ∀ t ∈ ts, t.kind = .space := by
  intro t ht
  obtain ⟨c, r, heq⟩ := exists_scan_of_mem_lex (hts t ht)
  have hhead : c ∈ t.text.head? := by rw [heq]; rfl
  exact kind_eq_space (hts t ht) hhead
    (h c (List.mem_flatMap.mpr ⟨t, ht, List.mem_of_mem_head? hhead⟩))

/-- White space at the front is in tokens of its own. -/
theorem exists_spaces (hts : ∀ t ∈ ts, t ∈ lex css) {a u : Text} (htext : textOf ts = a ++ u)
    (ha : ∀ c ∈ a, isSpace c = true) (hu : ∀ c ∈ u.head?, isSpace c = false) :
    ∃ between us, ts = between ++ us ∧ (∀ t ∈ between, t.kind = .space) ∧ textOf us = u := by
  have hdrop {x y : Text} (hx : ∀ c ∈ x, isSpace c = true) (hy : ∀ c ∈ y.head?, isSpace c = false) :
      (x ++ y).dropWhile isSpace = y := by
    rw [List.dropWhile_append_of_pos hx, Text.dropWhile_eq_self hy]
  generalize hbetween : ts.takeWhile (fun t => decide (t.kind = .space)) = between
  generalize hus : ts.dropWhile (fun t => decide (t.kind = .space)) = us
  have hsplit : ts = between ++ us := by
    rw [← hbetween, ← hus, List.takeWhile_append_dropWhile]
  have hkind : ∀ t ∈ between, t.kind = .space := fun t ht =>
    of_decide_eq_true (List.all_eq_true.mp List.all_takeWhile t (hbetween ▸ ht))
  refine ⟨between, us, hsplit, hkind, ?_⟩
  rw [hsplit] at hts
  have hfront : ∀ c ∈ textOf between, isSpace c = true := by
    intro c hc
    obtain ⟨t, ht, hmem⟩ := List.mem_flatMap.mp hc
    exact isSpace_of_mem_text (hts t (List.mem_append_left _ ht)) (hkind t ht) c hmem
  have hback : ∀ c ∈ (textOf us).head?, isSpace c = false := by
    intro c hc
    cases us with
    | nil => cases hc
    | cons t us =>
      have hfirst := Text.head?_dropWhile_not (fun t : Token => decide (t.kind = .space)) ts t
        (by rw [hus]; rfl)
      have ht := hts t (by simp)
      by_contra hspace
      refine absurd (kind_eq_space ht (c := c) ?_ (by simpa using hspace)) (by simpa using hfirst)
      obtain ⟨d, r, heq⟩ := exists_scan_of_mem_lex ht
      rw [heq] at hc ⊢
      exact hc
  rw [← hdrop hfront hback, ← textOf_append, ← hsplit, htext, hdrop ha hu]

/-- Letters with white space behind them are a token of their own. -/
theorem exists_word (h : ts ++ rest <:+ lex css) {w b : Text} (htext : textOf ts = w ++ b)
    (hw : ∀ c ∈ w, c.isAlpha = true) (hne : w ≠ []) (hb : ∀ c ∈ b, isSpace c = true) :
    ∃ behind, ts = ⟨.ident w, w⟩ :: behind ∧ ∀ t ∈ behind, t.kind = .space := by
  obtain ⟨c, w, rfl⟩ := List.exists_cons_of_ne_nil hne
  cases ts with
  | nil => cases htext
  | cons t ts =>
    have hlex := eq_lex_of_isSuffix h
    rw [textOf_append, htext, List.append_assoc, List.cons_append, List.cons_append, lex_cons,
      scan_of_isAlpha (hw c List.mem_cons_self)] at hlex
    obtain ⟨ht, -⟩ := List.cons.inj hlex
    have hname := name_append_of_letters hw (b ++ textOf rest)
    rw [List.cons_append] at hname
    generalize b ++ textOf rest = r at ht hname
    rcases nameLike_cases (c :: (w ++ r)) with hident | ⟨-, -, hlonger, hbracket⟩
    · rw [hident, hname] at ht
      have htake : (w ++ r).take ((c :: w).length + (name r).2 - 1) = w ++ r.take (name r).2 := by
        rw [List.length_cons, Nat.add_right_comm, Nat.add_sub_cancel, List.take_length_add_append]
      simp only [htake] at ht
      subst ht
      have hrest : r.take (name r).2 ++ textOf ts = b := by simpa using htext
      have hnone : name r = ([], 0) := by
        rcases name_cases r with hnone | ⟨d, hd, hnot, hpos⟩
        · exact hnone
        · have hmem : d ∈ r.take (name r).2 := mem_take_of_head?_drop (n := 0) (by simpa using hd) hpos
          rw [hb d (hrest ▸ List.mem_append_left _ hmem)] at hnot
          cases hnot
      rw [hnone, List.take_zero, List.nil_append] at hrest
      refine ⟨ts, by simp [hnone], ?_⟩
      exact forall_kind_eq_space (fun t ht => h.subset (by simp [ht])) (hrest ▸ hb)
    · -- the bracket would stand in the text
      have hmem : '(' ∈ t.text := by
        have htake := mem_take_of_head?_drop hbracket hlonger
        obtain ⟨k, hk⟩ : ∃ k, (nameLike (c :: (w ++ r))).2 = k + 1 :=
          ⟨_, (Nat.succ_pred (by omega)).symm⟩
        rw [hk, List.take_succ_cons] at htake
        rw [ht, hk]
        exact htake
      have hin : '(' ∈ c :: w ++ b := htext ▸ List.mem_append_left _ hmem
      rcases List.mem_append.mp hin with hin | hin
      · exact absurd (hw _ hin) (by decide)
      · exact absurd (hb _ hin) (by decide)

/-- Where the word is all that the tokens say, and their blanks are white space, they are the word
between white space. -/
theorem exists_plain (h : ts ++ rest <:+ lex css)
    (hsame : Text.sameIgnoringCase (Text.trim (textOf ts)) "important".toList = true)
    (hspace : ∀ c ∈ textOf ts, isBlank c = true → isSpace c = true) :
    ∃ between w behind, ts = between ++ ⟨.ident w, w⟩ :: behind ∧
      Text.sameIgnoringCase w "important".toList = true ∧
      ∀ t ∈ between ++ behind, t.kind = .space := by
  obtain ⟨l, r, htext, hl, hr⟩ := Text.trim_between (textOf ts)
  have hletters := isAlpha_of_important hsame
  have hne := ne_nil_of_important hsame
  generalize Text.trim (textOf ts) = w at htext hsame hletters hne
  have hhead : ∀ c ∈ (w ++ r).head?, isSpace c = false := by
    obtain ⟨c, w, rfl⟩ := List.exists_cons_of_ne_nil hne
    rintro d hd
    obtain rfl := Option.some.inj hd
    exact isSpace_of_isAlpha (hletters _ List.mem_cons_self)
  obtain ⟨between, us, rfl, hbetween, hus⟩ := exists_spaces
    (fun t ht => h.subset (List.mem_append_left _ ht)) (htext.trans (List.append_assoc l w r))
    (fun c hc => hspace c (by rw [htext]; simp [hc]) (hl c hc)) hhead
  have hback : us ++ rest <:+ lex css := List.IsSuffix.trans ⟨between, by simp⟩ h
  obtain ⟨behind, rfl, hbehind⟩ := exists_word hback hus hletters hne
    (fun c hc => hspace c (by rw [htext]; simp [hc]) (hr c hc))
  exact ⟨between, w, behind, rfl, hsame,
    fun t ht => (List.mem_append.mp ht).elim (hbetween t) (hbehind t)⟩

end Behind

/-! ## Marks at the end of a text -/

theorem eq_of_mark {css : Text} {t : Token} (h : t ∈ lex css) (ht : '!' ∈ t.text.head?) :
    t = ⟨.delim '!', ['!']⟩ := by
  obtain ⟨c, r, rfl⟩ := exists_scan_of_mem_lex h
  obtain rfl : c = '!' := Option.some.inj ht
  have hscan : scan '!' r = (.delim '!', 0) := by
    simp [scan, isSpace, startsNumber, startsName, isNameStart, sign, punctuation]
  rw [hscan, List.take_zero]

theorem exists_token_of_textOf {ts : List Token} {before after : Text} {c : Char}
    (h : textOf ts = before ++ c :: after) :
    ∃ us t vs x y, ts = us ++ t :: vs ∧ t.text = x ++ c :: y ∧ after = y ++ textOf vs := by
  induction ts generalizing before with
  | nil => cases before <;> cases h
  | cons t ts ih =>
    rcases append_eq_append_cons h with ⟨z, ht, rfl⟩ | ⟨z, rfl, hts⟩
    · exact ⟨[], t, ts, before, z, rfl, ht, rfl⟩
    · obtain ⟨us, u, vs, x, y, rfl, hu, hafter⟩ := ih hts
      exact ⟨t :: us, u, vs, x, y, rfl, hu, hafter⟩

/-- The word is all that is behind the last mark of the text, blanks apart, but this mark is no token
of its own, or there are blanks that are no white space. -/
def Hidden (vs : List Token) : Prop :=
  ∃ us t after x y, vs = us ++ t :: after ∧ t.text = x ++ '!' :: y ∧
    Text.sameIgnoringCase (Text.trim (y ++ textOf after)) "important".toList = true ∧
    (x ≠ [] ∨ ∃ c ∈ textOf after, isBlank c = true ∧ isSpace c = false)

/-- The text of a value is annotated by a plain annotation or by a hidden mark. -/
theorem annotated_iff {css : Text} {vs rest : List Token} (h : vs ++ rest <:+ lex css) :
    Annotated (textOf vs) ↔
      (∃ front, ∃ a : AnnotatedEnd, vs = front ++ a.tokens ∧ a.Valid ∧ a.Plain) ∨ Hidden vs := by
  constructor
  · rintro ⟨before, after, htext, hsame⟩
    obtain ⟨us, t, after, x, y, rfl, ht, rfl⟩ := exists_token_of_textOf htext
    by_cases hhidden : Hidden (us ++ t :: after)
    · exact .inr hhidden
    refine .inl ?_
    obtain rfl : x = [] := by
      by_contra hx
      exact hhidden ⟨us, t, after, x, y, rfl, ht, hsame, .inl hx⟩
    have hspace : ∀ c ∈ textOf after, isBlank c = true → isSpace c = true := by
      intro c hc hblank
      by_contra hnot
      exact hhidden ⟨us, t, after, [], y, rfl, ht, hsame,
        .inr ⟨c, hc, hblank, by simpa using hnot⟩⟩
    have htlex : t ∈ lex css := h.subset (by simp)
    obtain rfl := eq_of_mark htlex (by rw [ht]; rfl)
    obtain rfl : [] = y := (List.cons.inj ht).2
    rw [List.nil_append] at hsame
    have hafter : after ++ rest <:+ lex css :=
      List.IsSuffix.trans ⟨us ++ [⟨.delim '!', ['!']⟩], by simp⟩ h
    obtain ⟨between, w, behind, rfl, hsame, hkind⟩ := exists_plain hafter hsame hspace
    have hgap : ∀ t ∈ between ++ behind, t.isGap = true := fun t ht => by
      simp [Token.isGap, hkind t ht]
    exact ⟨us, ⟨⟨.delim '!', ['!']⟩, between, ⟨.ident w, w⟩, behind⟩, rfl,
      ⟨rfl, fun t ht => hgap t (List.mem_append_left _ ht), isWordOf_important.mpr ⟨w, rfl, hsame⟩,
        fun t ht => hgap t (List.mem_append_right _ ht)⟩, hkind, rfl⟩
  · rintro (⟨front, a, rfl, ha, hplain⟩ | ⟨us, t, after, x, y, rfl, ht, hsame, -⟩)
    · rw [← splitImportant_snd_iff, (splitImportant_annotatedEnd_iff
        (fun t ht => h.subset (by simp [ht])) ha).mpr hplain]
    · exact ⟨textOf us ++ x, y ++ textOf after, by simp [ht], hsame⟩

end Css

open Css

namespace Stylesheet

/-- How importance is read.  A declaration is important where its value ends in a plain annotation or
a hidden mark.  So a value that ends in an annotation loses it, and has nothing else taken off, if and
only if the annotation is plain; and a value that does not is left alone unless a mark is hidden in
it. -/
theorem parse_importance {v : Validator} {css : Text} {s : Stylesheet} {p : Place}
    {d : Declaration} (h : v.parse css = .ok s) (hd : s.declaration? p = some d) :
    ∃ r x, (placed css)[p.rule]? = some r ∧
      (placedDeclarations r.block)[p.declaration]? = some x ∧ d.property = x.property ∧
      (d.important = true ↔
        (∃ front, ∃ a : AnnotatedEnd, x.value = front ++ a.tokens ∧ a.Valid ∧ a.Plain) ∨
          Hidden x.value) ∧
      (∀ front, ∀ a : AnnotatedEnd, x.value = front ++ a.tokens → a.Valid →
        ((d.important = true ∧ d.value = slice front) ↔ a.Plain)) ∧
      (isImportant x.value = false → (d.important = true ↔ Hidden x.value)) ∧
      (d.important = false → d.value = slice x.value) := by
  obtain ⟨-, rfl⟩ := Validator.parse_eq_ok_iff.mp h
  obtain ⟨o, ho, hd⟩ := Option.bind_eq_some_iff.mp hd
  rw [read_rules, List.getElem?_map, Option.map_eq_some_iff] at ho
  obtain ⟨r, hr, rfl⟩ := ho
  replace hd : (Css.declarations r.block)[p.declaration]? = some d := hd
  rw [declarations_eq_map, List.getElem?_map, Option.map_eq_some_iff] at hd
  obtain ⟨x, hx, rfl⟩ := hd
  obtain ⟨before, rest, hcss⟩ : x.value <:+: lex css :=
    (value_isInfix (List.mem_of_getElem? hx)).trans (block_isInfix (List.mem_of_getElem? hr))
  have hsuffix : x.value ++ rest <:+ lex css := ⟨before, by rw [← List.append_assoc, hcss]⟩
  have himportant : x.declaration.important = true ↔
      (∃ front, ∃ a : AnnotatedEnd, x.value = front ++ a.tokens ∧ a.Valid ∧ a.Plain) ∨
        Hidden x.value := splitImportant_snd_iff.trans (annotated_iff hsuffix)
  refine ⟨r, x, hr, hx, rfl, himportant, fun front a hvalue ha => ?_, fun hnone => ?_,
    fun hnot => splitImportant_fst hnot⟩
  · have hlex : ∀ t ∈ a.tokens, t ∈ lex css := by
      intro t ht
      exact hsuffix.subset (by simp [hvalue, ht])
    have hsplit : (x.declaration.important = true ∧ x.declaration.value = slice front) ↔
        splitImportant (textOf (front ++ a.tokens)) = (slice front, true) := by
      rw [← hvalue, Prod.ext_iff, and_comm]
      rfl
    rw [hsplit, splitImportant_annotatedEnd_iff hlex ha]
  · rw [himportant, or_iff_right]
    rintro ⟨front, a, hvalue, ha, -⟩
    rw [isImportant_iff.mpr ⟨front, a, hvalue, ha⟩] at hnone
    cases hnone

def loudEnd : AnnotatedEnd where
  mark := ⟨.delim '!', ['!']⟩
  between := [⟨.space, [' ']⟩]
  word := ⟨.ident "IMPORTANT".toList, "IMPORTANT".toList⟩
  behind := [⟨.space, [' ']⟩]

def loudly : Text := ".a { color: red ! IMPORTANT ; top: 0 }".toList

theorem parse_importance_loudly :
    ∃ s d, parse loudly = .ok s ∧ s.declaration? ⟨0, 0⟩ = some d ∧ d.important = true ∧
      d.value = "red".toList := by
  obtain ⟨haccepts, hd, hvalues⟩ : Validator.grammar.Accepts loudly ∧
      (read loudly).declaration? ⟨0, 0⟩ = some ⟨"color".toList, "red".toList, true⟩ ∧
      ((placed loudly).map fun r => (placedDeclarations r.block).map (·.value)) =
        [[lex " red ".toList ++ loudEnd.tokens, lex " 0 ".toList]] := by
    decide +kernel
  have h : parse loudly = .ok (read loudly) := Validator.parse_eq_ok_iff.mpr ⟨haccepts, rfl⟩
  obtain ⟨r, x, hr, hx, -, -, hannotated, -⟩ := parse_importance h hd
  have hvalue : x.value = lex " red ".toList ++ loudEnd.tokens := by
    have hfirst := congrArg (fun values => values[0]?.bind (·[0]?)) hvalues
    simpa [hr, hx] using hfirst
  have hvalid : loudEnd.Valid := ⟨by decide, by decide, by decide, by decide⟩
  obtain ⟨himportant, hred⟩ := (hannotated _ loudEnd hvalue hvalid).mpr (by decide)
  exact ⟨_, _, h, hd, himportant, hred⟩

/-- A comment behind the word, and a mark that belongs to a name. -/
def disguised : Text :=
  ".a \x7b color: red !important /* note */; top: a\\!important \x7d".toList

/-- The annotation with the comment is kept as a part of the value, and the name is cut in two. -/
theorem not_parse_importance_disguised :
    Validator.grammar.Accepts disguised ∧
      ((placed disguised).flatMap fun r =>
        (placedDeclarations r.block).map fun x => isImportant x.value) = [true, false] ∧
      ((read disguised).rules.flatMap fun r => r.declarations.map fun d => (d.value, d.important)) =
        [("red !important /* note */".toList, false), ("a\\".toList, true)] := by
  decide +kernel

end Stylesheet

end StyleRef

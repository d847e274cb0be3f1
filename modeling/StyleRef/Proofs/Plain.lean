import StyleRef.Proofs.Rereading
import StyleRef.Proofs.Balance
import Mathlib.Data.List.TakeWhile

/-
# Plain sheets

A text is plain when it is made of letters, digits and a few signs, and names no
address: no escape, no string and no comment can begin in it.  Its tokens are
white space, words, names of functions and single signs, so it ends where its
last token ends, and its brackets are those of its tokens.

Sheets of plain texts are readable, whatever they consist of.  Main statement:
such a sheet is read as it was before it was written (`read_render_plain`).
-/

namespace StyleRef

namespace Text

/-! ## Texts without brackets -/

theorem surplus_eq_zero {w : Text} (h : ∀ c ∈ w, c ≠ '(' ∧ c ≠ ')') : surplus w = 0 := by
  have hopen : w.count '(' = 0 := List.count_eq_zero.mpr fun hmem => (h _ hmem).1 rfl
  have hclose : w.count ')' = 0 := List.count_eq_zero.mpr fun hmem => (h _ hmem).2 rfl
  rw [surplus, hopen, hclose]
  rfl

theorem Balanced.between {a v b : Text} (hv : v.Balanced)
    (ha : ∀ c ∈ a, c ≠ '(' ∧ c ≠ ')') (hb : ∀ c ∈ b, c ≠ '(' ∧ c ≠ ')') :
    Balanced (a ++ v ++ b) := by
  have hfirst {s : Text} (hs : ∀ c ∈ s, c ≠ '(' ∧ c ≠ ')') : s.OpensFirst :=
    opensFirst_of_not_mem fun hmem => (hs ')' hmem).2 rfl
  have ha0 := surplus_eq_zero ha
  refine ⟨opensFirst_iff.mpr fun p hp => ?_, ?_⟩
  · rw [isPrefix_append_iff, isPrefix_append_iff] at hp
    rcases hp with (hp | ⟨q, hq, rfl⟩) | ⟨q, hq, rfl⟩
    · exact opensFirst_iff.mp (hfirst ha) p hp
    · have := opensFirst_iff.mp hv.opensFirst q hq
      rw [surplus_append]
      omega
    · have := opensFirst_iff.mp (hfirst hb) q hq
      rw [surplus_append, surplus_append, hv.even]
      omega
  · rw [surplus_append, surplus_append, hv.even, ha0, surplus_eq_zero hb]
    rfl

/-- No letter becomes a bracket. -/
theorem eq_of_toLower_eq {c : Char} (h : c.toLower = '(') : c = '(' := by
  unfold Char.toLower at h
  split at h
  · next hupper =>
    have hval := congrArg (fun d => d.val.toNat) h
    have hopen : '('.val.toNat = 40 := rfl
    have hshift : ('a'.val - 'A'.val).toNat = 32 := rfl
    have hletters : 'A'.val.toNat = 65 ∧ 'Z'.val.toNat = 90 := ⟨rfl, rfl⟩
    simp only [ge_iff_le, UInt32.le_iff_toNat_le] at hupper
    simp only [UInt32.toNat_add, hopen, hshift] at hval
    omega
  · exact h

theorem not_mem_map_toLower {w : Text} (h : '(' ∉ w) : '(' ∉ w.map Char.toLower := by
  intro hmem
  obtain ⟨c, hc, hlower⟩ := List.mem_map.mp hmem
  exact h (eq_of_toLower_eq hlower ▸ hc)

/-- What ends in a character stands in front of a text without it. -/
theorem infix_of_append {p a b : Text} {c : Char} (h : p ++ [c] <:+: a ++ b) (hc : c ∉ b) :
    p ++ [c] <:+: a := by
  obtain ⟨s, t, hst⟩ := h
  rcases List.append_eq_append_iff.mp hst with ⟨z, hz, -⟩ | ⟨z, hz, rfl⟩
  · exact ⟨s, z, hz.symm⟩
  · cases List.eq_nil_or_concat z with
    | inl hnil =>
      rw [hnil, List.append_nil] at hz
      exact ⟨s, [], by rw [List.append_nil, hz]⟩
    | inr hlast =>
      obtain ⟨z, d, rfl⟩ := hlast
      have hd : c = d := by
        have := congrArg List.getLast? hz
        simpa [← List.append_assoc] using this
      exact absurd (by simp [hd]) hc

end Text

namespace Css

/-! ## Plain characters -/

/-- The characters of plain texts, with the marks that may stand behind them. -/
def isPlain (c : Char) : Bool :=
  c.isAlphanum || [' ', '#', '%', '.', '-', '_', ',', ':', ';', '!', '(', ')'].contains c

/-- The characters that may stand behind a plain text without being part of it. -/
def isMild (c : Char) : Bool := c.isAlphanum || [' ', '!'].contains c

theorem isPlain_of_isMild {c : Char} (h : isMild c = true) : isPlain c = true := by
  simp only [isMild, isPlain, Bool.or_eq_true] at h ⊢
  rcases h with h | h
  · exact .inl h
  · right
    revert h
    simp only [List.contains_iff_mem]
    exact fun h => List.Sublist.subset (by decide) h

/-- The characters that words of plain texts are made of. -/
def isInner (c : Char) : Bool := isNameChar c || ['.', '%', '+', '#'].contains c

theorem isInner_of_isDigit {c : Char} (h : c.isDigit = true) : isInner c = true := by
  simp [isInner, isNameChar, h]

/-- A class tells its characters from all others. -/
theorem ne_of_class {p : Char → Bool} {c d : Char} (h : p c = true) (hd : p d = false) : c ≠ d := by
  rintro rfl
  rw [h] at hd
  cases hd

/-- Which tokens plain texts have. -/
inductive PlainToken : Token → Prop
  | space {w : Text} (h : ∀ c ∈ w, isSpace c = true) : PlainToken ⟨.space, w⟩
  | ident {name w : Text} (h : ∀ c ∈ w, isInner c = true) : PlainToken ⟨.ident name, w⟩
  | idHash {name w : Text} (h : ∀ c ∈ w, isInner c = true) : PlainToken ⟨.idHash name, w⟩
  | hash {name w : Text} (h : ∀ c ∈ w, isInner c = true) : PlainToken ⟨.hash name, w⟩
  | number {signed integral : Bool} {w : Text} (h : ∀ c ∈ w, isInner c = true) :
      PlainToken ⟨.number signed integral, w⟩
  | percentage {w : Text} (h : ∀ c ∈ w, isInner c = true) : PlainToken ⟨.percentage, w⟩
  | dimension {integral : Bool} {unit w : Text} (h : ∀ c ∈ w, isInner c = true) :
      PlainToken ⟨.dimension integral unit, w⟩
  | function {name w : Text} (h : ∀ c ∈ w, isInner c = true) :
      PlainToken ⟨.function name, w ++ ['(']⟩
  | sign {c : Char} (h : isPlain c = true) : PlainToken ⟨punctuation c, [c]⟩

namespace PlainToken

variable {t : Token}

theorem text_eq_of_mem (ht : PlainToken t) (h : ';' ∈ t.text) : t.text = [';'] := by
  have hinner {w : Text} (hw : ∀ c ∈ w, isInner c = true) (h : ';' ∈ w) : False :=
    absurd (hw ';' h) (by decide)
  cases ht with
  | space hw => exact absurd (hw ';' h) (by decide)
  | function hw =>
    simp only [List.mem_append, List.mem_singleton, Char.reduceEq, or_false] at h
    exact (hinner hw h).elim
  | sign hc =>
    rw [List.mem_singleton] at h
    rw [← h]
  | ident hw | idHash hw | hash hw | number hw | percentage hw | dimension hw =>
    exact (hinner hw h).elim

theorem eq_of_punctuation {c m : Char} (hm : m = ';' ∨ m = ':')
    (h : punctuation c = punctuation m) : c = m := by
  unfold punctuation at h
  rcases hm with rfl | rfl <;> split at h <;> first | rfl | cases h

theorem mem_text {m : Char} (hm : m = ';' ∨ m = ':') (ht : PlainToken t)
    (h : t.kind = punctuation m) : m ∈ t.text := by
  cases ht with
  | sign => exact List.mem_singleton.mpr (eq_of_punctuation hm h).symm
  | _ => rcases hm with rfl | rfl <;> cases h

theorem opensBody (ht : PlainToken t) : t.opensBody = false := by
  cases ht with
  | @sign c hc =>
    have hbrace : c ≠ '{' := ne_of_class hc (by decide)
    rw [Bool.eq_false_iff]
    intro hkind
    have hkind : punctuation c = .opening .curly := of_decide_eq_true hkind
    unfold punctuation at hkind
    split at hkind <;> first | exact hbrace rfl | cases hkind
  | _ => rfl

/-- A token that does not begin with white space begins a statement, and no at-rule. -/
theorem begins (ht : PlainToken t) (h : ∀ c ∈ t.text.head?, isSpace c = false) (hne : t.text ≠ []) :
    t.isFiller = false ∧ ∀ name, t.kind ≠ .atKeyword name := by
  cases ht with
  | @space w hw =>
    cases w with
    | nil => exact absurd rfl hne
    | cons c w => exact absurd (hw c (by simp)) (by simp [h c rfl])
  | sign =>
    simp only [Token.isFiller, Token.isGap]
    unfold punctuation
    split <;> exact ⟨rfl, fun _ h => by cases h⟩
  | _ => exact ⟨rfl, fun _ h => by cases h⟩

end PlainToken

/-! ## Words -/

section Scanning
variable {s : Text}

theorem take_length_takeWhile (p : Char → Bool) (s : Text) :
    s.take (s.takeWhile p).length = s.takeWhile p :=
  (List.prefix_iff_eq_take.mp (List.takeWhile_prefix p)).symm

theorem name_eq (h : ∀ c ∈ s, isPlain c = true) :
    name s = (s.takeWhile isNameChar, (s.takeWhile isNameChar).length) := by
  rw [name]
  induction s with
  | nil => rfl
  | cons c s ih =>
    have ih := ih fun d hd => h d (List.mem_cons_of_mem c hd)
    have hslash : c ≠ '\\' := ne_of_class (h c (by simp)) (by decide)
    have hzero : c ≠ '\x00' := ne_of_class (h c (by simp)) (by decide)
    by_cases hc : isNameChar c = true
    · simp [nameFrom, nameChar?, hslash, hzero, hc, ih]
    · simp [nameFrom, nameChar?, hslash, hzero, hc]

/-- The first `n` characters belong to a word. -/
def Inner (n : Nat) (s : Text) : Prop := ∀ c ∈ s.take n, isInner c = true

theorem Inner.add {n m : Nat} (hn : Inner n s) (hm : Inner m (s.drop n)) : Inner (n + m) s := by
  intro c hc
  rw [List.take_add, List.mem_append] at hc
  exact hc.elim (hn c) (hm c)

theorem inner_zero (s : Text) : Inner 0 s := by
  simp [Inner]

theorem inner_one {p : Char → Bool} (h : startsWith p s = true)
    (hp : ∀ c, p c = true → isInner c = true) : Inner 1 s := by
  cases s with
  | nil => cases h
  | cons c s =>
    intro d hd
    obtain rfl : d = c := by simpa using hd
    exact hp d h

theorem inner_digitCount (s : Text) : Inner (digitCount s) s := by
  intro c hc
  rw [digitCount, take_length_takeWhile] at hc
  exact isInner_of_isDigit (List.mem_takeWhile_imp hc)

theorem inner_name (h : ∀ c ∈ s, isPlain c = true) : Inner (name s).2 s := by
  intro c hc
  rw [name_eq h, take_length_takeWhile] at hc
  simp [isInner, List.mem_takeWhile_imp hc]

theorem inner_fractionLength (s : Text) : Inner (fractionLength s) s := by
  rw [fractionLength]
  split
  · next h =>
    rw [Bool.and_eq_true] at h
    refine (inner_one h.1 fun c hc => ?_).add (inner_digitCount _)
    rw [of_decide_eq_true hc]
    decide
  · exact inner_zero s

theorem inner_exponentLength (s : Text) : Inner (exponentLength s) s := by
  have hletter : ∀ c, (decide (c = 'e') || decide (c = 'E')) = true → isInner c = true := by
    intro c hc
    simp only [Bool.or_eq_true, decide_eq_true_eq] at hc
    rcases hc with rfl | rfl <;> decide
  have hsign : ∀ c, (decide (c = '+') || decide (c = '-')) = true → isInner c = true := by
    intro c hc
    simp only [Bool.or_eq_true, decide_eq_true_eq] at hc
    rcases hc with rfl | rfl <;> decide
  rw [exponentLength]
  split
  · next h =>
    have hsigned : Inner (if startsWith (fun c => c = '+' || c = '-') (s.drop 1) then 1 else 0)
        (s.drop 1) := by
      split
      · next hs => exact inner_one hs hsign
      · exact inner_zero _
    simp only
    generalize (if startsWith _ (s.drop 1) = true then 1 else 0) = sign at hsigned ⊢
    split
    · exact inner_zero s
    · exact ((inner_one h hletter).add hsigned).add (inner_digitCount _)
  · exact inner_zero s

theorem mem_drop_isPlain (h : ∀ c ∈ s, isPlain c = true) (n : Nat) :
    ∀ c ∈ s.drop n, isPlain c = true := fun c hc => h c (List.mem_of_mem_drop hc)

theorem inner_numeric (h : ∀ c ∈ s, isPlain c = true) : Inner (numeric s).2 s := by
  have hsign : ∀ c, (decide (c = '+') || decide (c = '-')) = true → isInner c = true := by
    intro c hc
    simp only [Bool.or_eq_true, decide_eq_true_eq] at hc
    rcases hc with rfl | rfl <;> decide
  have hsigned : Inner (if startsWith (fun c => c = '+' || c = '-') s then 1 else 0) s := by
    split
    · next hs => exact inner_one hs hsign
    · exact inner_zero _
  simp only [numeric]
  generalize (if startsWith _ s = true then 1 else 0) = sign at hsigned ⊢
  have hwhole := hsigned.add (inner_digitCount (s.drop sign))
  generalize sign + digitCount (s.drop sign) = whole at hwhole ⊢
  have hfraction := hwhole.add (inner_fractionLength (s.drop whole))
  generalize fractionLength (s.drop whole) = fraction at hfraction ⊢
  have hexponent := hfraction.add (inner_exponentLength (s.drop (whole + fraction)))
  generalize whole + fraction + exponentLength (s.drop (whole + fraction)) = n at hexponent ⊢
  split
  · next hpercent =>
    refine hexponent.add (inner_one hpercent fun c hc => ?_)
    rw [of_decide_eq_true hc]
    decide
  · split
    · exact hexponent.add (inner_name (mem_drop_isPlain h n))
    · exact hexponent

theorem plain_numeric (s : Text) {w : Text} (hw : ∀ c ∈ w, isInner c = true) :
    PlainToken ⟨(numeric s).1, w⟩ := by
  simp only [numeric]
  generalize (if startsWith _ s = true then 1 else 0) = sign
  split
  · exact .percentage hw
  · split
    · exact .dimension hw
    · exact .number hw

/-! ## Tokens -/

theorem plain_sign {c : Char} (h : ∀ d ∈ c :: s, isPlain d = true) :
    PlainToken ⟨(sign c s).1, c :: s.take (sign c s).2⟩ := by
  have hs : ∀ d ∈ s, isPlain d = true := fun d hd => h d (List.mem_cons_of_mem c hd)
  have hc {d : Char} (hd : isPlain d = false) : c ≠ d := ne_of_class (h c (by simp)) hd
  have hhash (hc : c = '#') : ∀ d ∈ c :: s.take (name s).2, isInner d = true := by
    rw [List.forall_mem_cons]
    exact ⟨by rw [hc]; decide, inner_name hs⟩
  simp only [sign, hc (d := '"') (by decide), hc (d := '\'') (by decide),
    hc (d := '@') (by decide), hc (d := '/') (by decide), hc (d := '<') (by decide),
    hc (d := '~') (by decide), hc (d := '|') (by decide), hc (d := '^') (by decide),
    hc (d := '$') (by decide), hc (d := '*') (by decide), decide_false, Bool.or_self,
    Bool.false_and, Bool.false_eq_true, ↓reduceIte]
  split
  · next hid =>
    exact .idHash (hhash (of_decide_eq_true (Bool.and_eq_true_iff.mp hid).1))
  · split
    · next hid => exact .hash (hhash (of_decide_eq_true (Bool.and_eq_true_iff.mp hid).1))
    · exact .sign (h c (by simp))

/-- What a name starts is an identifier or the name of a function. -/
theorem plain_nameLike {c : Char} (h : ∀ d ∈ c :: s, isPlain d = true)
    (hstart : isNameChar c = true)
    (hurl : ¬ ['u', 'r', 'l', '('] <+: (c :: s).map Char.toLower) :
    PlainToken ⟨(nameLike (c :: s)).1, c :: s.take ((nameLike (c :: s)).2 - 1)⟩ := by
  have hsplit := List.takeWhile_append_dropWhile (p := isNameChar) (l := s)
  have hname : name (c :: s) = (c :: s.takeWhile isNameChar, (s.takeWhile isNameChar).length + 1) := by
    rw [name_eq h, List.takeWhile_cons_of_pos hstart, List.length_cons]
  have hword : ∀ d ∈ c :: s.takeWhile isNameChar, isInner d = true := by
    rw [List.forall_mem_cons]
    refine ⟨by simp [isInner, hstart], fun d hd => ?_⟩
    simp [isInner, List.mem_takeWhile_imp hd]
  generalize s.takeWhile isNameChar = w at hsplit hname hword
  generalize s.dropWhile isNameChar = rest at hsplit
  subst hsplit
  have hdrop : (c :: (w ++ rest)).drop (w.length + 1) = rest := by simp
  simp only [nameLike, hname, hdrop]
  split
  · next hopen =>
    obtain ⟨rest, rfl⟩ := List.head?_eq_some_iff.mp hopen
    have hother : Text.sameIgnoringCase (c :: w) "url".toList = false := by
      rw [Bool.eq_false_iff]
      intro hsame
      apply hurl
      have hlower : (c :: w).map Char.toLower = ['u', 'r', 'l'] := by
        simpa [Text.sameIgnoringCase] using hsame
      rw [← List.cons_append, List.map_append, hlower]
      exact ⟨rest.map Char.toLower, rfl⟩
    simp only [hother, Bool.false_eq_true, ↓reduceIte, Nat.add_sub_cancel]
    have htake : c :: (w ++ '(' :: rest).take (w.length + 1) = c :: w ++ ['('] := by
      simp [List.take_append]
    rw [htake]
    exact .function hword
  · simp only [Nat.add_sub_cancel, List.take_left]
    exact .ident hword

theorem isInner_of_startsNumber {c : Char} (h : startsNumber (c :: s) = true) :
    isInner c = true := by
  simp only [startsNumber, Bool.or_eq_true, Bool.and_eq_true, decide_eq_true_eq] at h
  rcases h with (hdigit | ⟨rfl, -⟩) | ⟨rfl | rfl, -⟩
  · exact isInner_of_isDigit hdigit
  all_goals decide

theorem isNameChar_of_startsName {c : Char} (h : isPlain c = true)
    (hstart : startsName (c :: s) = true) : isNameChar c = true := by
  have hslash : c ≠ '\\' := ne_of_class h (by decide)
  simp only [startsName, hslash, ↓reduceIte] at hstart
  split at hstart
  · next hhyphen => rw [hhyphen]; decide
  · simp [isNameChar, hstart]

/-- The token at the front of a plain text. -/
theorem plain_scan {c : Char} (h : ∀ d ∈ c :: s, isPlain d = true)
    (hurl : ¬ ['u', 'r', 'l', '('] <+: (c :: s).map Char.toLower) :
    PlainToken ⟨(scan c s).1, c :: s.take (scan c s).2⟩ := by
  rw [scan]
  split
  · next hspace =>
    refine .space ?_
    rw [List.forall_mem_cons, take_length_takeWhile]
    exact ⟨hspace, fun d hd => List.mem_takeWhile_imp hd⟩
  · split
    · next hnumber =>
      refine plain_numeric (c :: s) ?_
      rw [List.forall_mem_cons]
      refine ⟨isInner_of_startsNumber hnumber, ?_⟩
      intro d (hd : d ∈ s.take ((numeric (c :: s)).2 - 1))
      apply inner_numeric h d
      cases hn : (numeric (c :: s)).2 with
      | zero => simp [hn] at hd
      | succ n =>
        rw [hn, Nat.add_sub_cancel] at hd
        rw [List.take_succ_cons]
        exact List.mem_cons_of_mem c hd
    · have harrow : s.take 2 ≠ "->".toList := by
        intro htake
        have hmem : '>' ∈ s := List.mem_of_mem_take (i := 2) (by rw [htake]; decide)
        exact ne_of_class (h '>' (List.mem_cons_of_mem c hmem)) (d := '>') (by decide) rfl
      simp only [harrow, decide_false, Bool.and_false, Bool.false_eq_true, ↓reduceIte]
      split
      · next hname => exact plain_nameLike h (isNameChar_of_startsName (h c (by simp)) hname) hurl
      · exact plain_sign h

end Scanning

/-! ## Plain texts -/

/-- A text of plain characters that names no address. -/
structure PlainText (w : Text) : Prop where
  chars : ∀ c ∈ w, isPlain c = true
  noAddress : ¬ ['u', 'r', 'l', '('] <:+: w.map Char.toLower

namespace PlainText

variable {w : Text}

theorem of_infix {v : Text} (h : PlainText w) (hv : v <:+: w) : PlainText v := by
  refine ⟨fun c hc => h.chars c (hv.subset hc), fun hurl => h.noAddress ?_⟩
  exact hurl.trans (hv.map Char.toLower)

theorem scan {c : Char} {s : Text} (h : PlainText (c :: s)) :
    PlainToken ⟨(scan c s).1, c :: s.take (Css.scan c s).2⟩ :=
  plain_scan h.chars fun hurl => h.noAddress hurl.isInfix

theorem lex (h : PlainText w) : ∀ t ∈ lex w, PlainToken t := by
  suffices ∀ skip, ∀ t ∈ lexFrom skip w, PlainToken t from this 0
  induction w with
  | nil => intro skip t ht; cases skip <;> cases ht
  | cons c s ih =>
    intro skip
    have ih := ih (h.of_infix (List.suffix_cons c s).isInfix)
    cases skip with
    | succ skip => exact ih skip
    | zero =>
      intro t ht
      rcases List.mem_cons.mp ht with rfl | ht
      · exact h.scan
      · exact ih _ t ht

/-- With a semicolon behind it, a plain text ends where its last token ends. -/
theorem closed (h : PlainText (w ++ [';'])) : Closed w := by
  refine closed_of_forall_scan fun c s hs => ?_
  obtain ⟨a, rfl⟩ := hs
  have htoken := (h.of_infix (v := c :: (s ++ [';'])) ⟨a, [], by simp⟩).scan
  rcases Nat.lt_or_ge s.length (Css.scan c (s ++ [';'])).2 with hlt | hle
  · rw [List.take_of_length_le (by rw [List.length_append]; exact hlt)] at htoken
    have halone := htoken.text_eq_of_mem (by simp)
    simp at halone
  · exact hle

/-- The pieces of a plain text stand in it. -/
theorem mem_of_mem_lex {t : Token} (ht : t ∈ Css.lex w) {c : Char} (hc : c ∈ t.text) : c ∈ w := by
  rw [← textOf_lex w, textOf, List.mem_flatMap]
  exact ⟨t, ht, hc⟩

end PlainText

/-- A text without an opening bracket names no address. -/
theorem PlainText.of_not_mem {w : Text} (h : ∀ c ∈ w, isPlain c = true) (hw : '(' ∉ w) :
    PlainText w :=
  ⟨h, fun hurl => Text.not_mem_map_toLower hw (hurl.subset (by decide))⟩

/-- A plain text between a blank and what has no bracket. -/
theorem PlainText.between {v b : Text} (h : PlainText v) (hplain : ∀ c ∈ b, isPlain c = true)
    (hb : '(' ∉ b) : PlainText (' ' :: v ++ b) := by
  refine ⟨?_, fun hurl => ?_⟩
  · intro c hc
    rcases List.mem_append.mp hc with hc | hc
    · rcases List.mem_cons.mp hc with rfl | hc
      · decide
      · exact h.chars c hc
    · exact hplain c hc
  · rw [List.map_append] at hurl
    have hurl := Text.infix_of_append (p := ['u', 'r', 'l']) hurl (Text.not_mem_map_toLower hb)
    rw [List.map_cons, List.infix_cons_iff] at hurl
    rcases hurl with hurl | hurl
    · have hhead := (List.cons_prefix_cons.mp hurl).1
      exact absurd hhead (by decide)
    · exact h.noAddress hurl

/-! ## Brackets -/

/-- What a token does to the brackets that are open. -/
def Token.surplus (t : Token) : Int :=
  if t.opens?.isSome then 1 else if t.closes?.isSome then -1 else 0

/-- The only brackets of a plain token are round ones, and they are those of its text. -/
structure RoundToken (t : Token) : Prop where
  opens : ∀ b ∈ t.opens?, b = .round
  closes : ∀ b ∈ t.closes?, b = .round
  surplus : Text.surplus t.text = t.surplus

theorem PlainToken.round {t : Token} (ht : PlainToken t) : RoundToken t := by
  have hinner {w : Text} (hw : ∀ c ∈ w, isInner c = true) : Text.surplus w = 0 := by
    refine Text.surplus_eq_zero fun c hc => ⟨?_, ?_⟩ <;> rintro rfl <;> exact absurd (hw _ hc) (by decide)
  have hword {k : Kind} {w : Text} (hw : Text.surplus w = 0) (hopen : Token.opens? ⟨k, w⟩ = none)
      (hclose : Token.closes? ⟨k, w⟩ = none) : RoundToken ⟨k, w⟩ := by
    refine ⟨by simp [hopen], by simp [hclose], ?_⟩
    simp [Token.surplus, hopen, hclose, hw]
  cases ht with
  | space hw =>
    refine hword (Text.surplus_eq_zero fun c hc => ⟨?_, ?_⟩) rfl rfl <;> rintro rfl <;>
      exact absurd (hw _ hc) (by decide)
  | function hw =>
    refine ⟨by simp [Token.opens?], by simp [Token.closes?], ?_⟩
    rw [Text.surplus_append, hinner hw]
    rfl
  | @sign c hc =>
    have hbracket : ∀ d ∈ ['[', ']', '{', '}'], c ≠ d := by
      intro d hd
      exact ne_of_class hc (by revert d; decide)
    simp only [List.forall_mem_cons] at hbracket
    unfold punctuation
    split
    case h_1 | h_2 => exact ⟨by simp [Token.opens?], by simp [Token.closes?], rfl⟩
    case h_10 hopen hclose _ _ _ _ _ _ _ =>
      exact hword (Text.surplus_eq_zero (by simpa using ⟨hopen, hclose⟩)) rfl rfl
    case h_7 | h_8 | h_9 => exact hword rfl rfl rfl
    all_goals simp at hbracket
  | ident hw | idHash hw | hash hw | number hw | percentage hw | dimension hw =>
    exact hword (hinner hw) rfl rfl

/-- Tokens whose brackets fit the open ones, as a text. -/
theorem settles_of_round {ts : List Token} (hts : ∀ t ∈ ts, RoundToken t) {n : Nat}
    (hfirst : ∀ a, a <+: textOf ts → 0 ≤ n + Text.surplus a)
    (heven : n + Text.surplus (textOf ts) = 0) :
    settles (List.replicate n .round) ts = true := by
  induction ts generalizing n with
  | nil =>
    have hzero : n = 0 := by simpa [Text.surplus] using heven
    rw [hzero]
    rfl
  | cons t ts ih =>
    have ht := hts t (by simp)
    -- as many brackets are open behind the token as its text says
    have htext := hfirst t.text (List.prefix_append _ _)
    have hstep {m : Nat} (hm : (m : Int) = n + t.surplus) :
        settles (List.replicate m .round) ts = true := by
      refine ih (fun u hu => hts u (List.mem_cons_of_mem t hu)) ?_ ?_
      · intro a ha
        have hnext := hfirst (t.text ++ a) ((List.prefix_append_right_inj t.text).mpr ha)
        rw [Text.surplus_append, ht.surplus] at hnext
        omega
      · rw [textOf_cons, Text.surplus_append, ht.surplus] at heven
        omega
    rw [ht.surplus] at htext
    rw [settles_cons]
    unfold nest
    unfold Token.surplus at hstep htext
    cases hopen : t.opens? with
    | some b =>
      obtain rfl := ht.opens b hopen
      simp only [hopen, Option.isSome_some, ↓reduceIte] at hstep
      exact ⟨by simp, hstep (m := n + 1) (by omega)⟩
    | none =>
      simp only [hopen, Option.isSome_none, Bool.false_eq_true, ↓reduceIte] at hstep htext
      cases hclose : t.closes? with
      | none =>
        simp only [hclose, Option.isSome_none, Bool.false_eq_true, ↓reduceIte] at hstep
        refine ⟨by simp, ?_⟩
        cases n with
        | zero => exact hstep (m := 0) (by omega)
        | succ n => exact hstep (m := n + 1) (by omega)
      | some b =>
        obtain rfl := ht.closes b hclose
        simp only [hclose, Option.isSome_some, ↓reduceIte] at hstep htext
        obtain ⟨m, rfl⟩ : ∃ m, n = m + 1 := ⟨n - 1, by omega⟩
        refine ⟨by simp [List.replicate_succ], ?_⟩
        simpa [List.replicate_succ] using hstep (m := m) (by omega)

theorem PlainText.settles {w : Text} (h : PlainText w) (hw : Text.Balanced w) :
    settles [] (Css.lex w) = true := by
  refine settles_of_round (n := 0) (fun t ht => (h.lex t ht).round) ?_ ?_
  · intro a ha
    rw [textOf_lex] at ha
    simpa using Text.opensFirst_iff.mp hw.opensFirst a ha
  · simpa using hw.even

end Css

open Css

/-! ## Plain sheets -/

/-- A text over letters, digits and the signs, with balanced brackets, no blank at either end and no
address. -/
structure Text.Plain (signs : List Char) (s : Text) : Prop where
  chars : ∀ c ∈ s, c.isAlphanum = true ∨ c ∈ signs
  balanced : s.Balanced
  start : s.head? ≠ some ' '
  stop : s.getLast? ≠ some ' '
  noAddress : ¬ "url(".toList <:+: s.map Char.toLower

def valueSigns : List Char := ['#', '%', '.', '-', '_', ',', '(', ')', ' ']

def querySigns : List Char := ['-', ':', '(', ')', ' ']

structure Declaration.Plain (d : Declaration) : Prop where
  property : ∀ c ∈ d.property, c.isAlpha = true ∨ c = '-'
  begins : ∃ c ∈ d.property.head?, c.isAlpha = true
  value : d.value.Plain valueSigns

structure Rule.Plain (r : Rule) : Prop where
  selector : ∀ c ∈ r.selector, c.isAlphanum = true ∨ c ∈ ['.', '-', '_', ',', ' ']
  begins : ∃ c ∈ r.selector.head?, c.isAlpha = true ∨ c = '.'
  stop : r.selector.getLast? ≠ some ' '
  query : ∀ q ∈ r.media, q.Plain querySigns
  declarations : ∀ d ∈ r.declarations, d.Plain

instance decTextPlain (signs : List Char) (s : Text) : Decidable (s.Plain signs) :=
  decidable_of_iff
    ((∀ c ∈ s, c.isAlphanum = true ∨ c ∈ signs) ∧ s.Balanced ∧ s.head? ≠ some ' ' ∧
      s.getLast? ≠ some ' ' ∧ ¬ "url(".toList <:+: s.map Char.toLower)
    ⟨fun ⟨a, b, c, d, e⟩ => ⟨a, b, c, d, e⟩, fun ⟨a, b, c, d, e⟩ => ⟨a, b, c, d, e⟩⟩

instance decDeclarationPlain (d : Declaration) : Decidable d.Plain :=
  decidable_of_iff
    ((∀ c ∈ d.property, c.isAlpha = true ∨ c = '-') ∧
      (∃ c ∈ d.property.head?, c.isAlpha = true) ∧ d.value.Plain valueSigns)
    ⟨fun ⟨a, b, c⟩ => ⟨a, b, c⟩, fun ⟨a, b, c⟩ => ⟨a, b, c⟩⟩

instance decRulePlain (r : Rule) : Decidable r.Plain :=
  decidable_of_iff
    ((∀ c ∈ r.selector, c.isAlphanum = true ∨ c ∈ ['.', '-', '_', ',', ' ']) ∧
      (∃ c ∈ r.selector.head?, c.isAlpha = true ∨ c = '.') ∧ r.selector.getLast? ≠ some ' ' ∧
      (∀ q ∈ r.media, q.Plain querySigns) ∧ ∀ d ∈ r.declarations, d.Plain)
    ⟨fun ⟨a, b, c, d, e⟩ => ⟨a, b, c, d, e⟩, fun ⟨a, b, c, d, e⟩ => ⟨a, b, c, d, e⟩⟩

theorem isBlank_of_isAlphanum {c : Char} (h : c.isAlphanum = true) : isBlank c = false := by
  have hrange : 48 ≤ c.toNat ∧ c.toNat ≤ 122 := by
    unfold Char.isAlphanum Char.isAlpha Char.isUpper Char.isLower Char.isDigit at h
    simp only [Bool.or_eq_true, Bool.and_eq_true, decide_eq_true_eq, ge_iff_le,
      UInt32.le_iff_toNat_le] at h
    rcases h with (⟨ha, hb⟩ | ⟨ha, hb⟩) | ⟨ha, hb⟩ <;>
      exact ⟨Nat.le_trans (by decide) ha, Nat.le_trans hb (by decide)⟩
  rw [Bool.eq_false_iff]
  intro hblank
  simp only [isBlank, Bool.or_eq_true, Bool.and_eq_true, decide_eq_true_eq, beq_iff_eq] at hblank
  omega

/-- A text whose only blanks are spaces is tidy if it has none at its ends. -/
theorem Text.tidy_of_chars {signs : List Char} {s : Text}
    (h : ∀ c ∈ s, c.isAlphanum = true ∨ c ∈ signs)
    (hsigns : ∀ c ∈ signs, isBlank c = true → c = ' ') (hstart : s.head? ≠ some ' ')
    (hstop : s.getLast? ≠ some ' ') : s.Tidy := by
  have hblank {c : Char} (hc : c ∈ s) (hspace : c ≠ ' ') : isBlank c = false := by
    rcases h c hc with hletter | hsign
    · exact isBlank_of_isAlphanum hletter
    · exact Bool.eq_false_iff.mpr fun hb => hspace (hsigns c hsign hb)
  refine ⟨fun c hc => hblank (List.mem_of_mem_head? hc) ?_,
    fun c hc => hblank (List.mem_of_mem_getLast? hc) ?_⟩
  · rintro rfl
    exact hstart hc
  · rintro rfl
    exact hstop hc

namespace Text.Plain

variable {signs : List Char} {s : Text}

theorem plainText (h : s.Plain signs) (hsigns : ∀ c ∈ signs, isPlain c = true) : PlainText s := by
  refine ⟨fun c hc => ?_, h.noAddress⟩
  rcases h.chars c hc with hletter | hsign
  · simp [isPlain, hletter]
  · exact hsigns c hsign

theorem tidy (h : s.Plain signs) (hsigns : ∀ c ∈ signs, isBlank c = true → c = ' ') : s.Tidy :=
  tidy_of_chars h.chars hsigns h.start h.stop

/-- Behind a blank, and in front of what has no bracket, a plain text keeps its tokens to itself. -/
theorem between (h : s.Plain signs) (hsigns : ∀ c ∈ signs, isPlain c = true) {b : Text}
    (hb : ∀ c ∈ b, isMild c = true) :
    Settled (' ' :: s ++ b) ∧ ∀ t ∈ lex (' ' :: s ++ b), PlainToken t := by
  have hround : ∀ c ∈ b, c ≠ '(' ∧ c ≠ ')' := fun c hc =>
    ⟨ne_of_class (hb c hc) (by decide), ne_of_class (hb c hc) (by decide)⟩
  have hplain : ∀ c ∈ b ++ [';'], isPlain c = true := by
    intro c hc
    rcases List.mem_append.mp hc with hc | hc
    · exact isPlain_of_isMild (hb c hc)
    · rw [List.mem_singleton.mp hc]
      decide
  have hbehind : PlainText (' ' :: s ++ (b ++ [';'])) := by
    refine (h.plainText hsigns).between hplain fun hmem => ?_
    simp only [List.mem_append, List.mem_singleton, Char.reduceEq, or_false] at hmem
    exact (hround _ hmem).1 rfl
  rw [← List.append_assoc] at hbehind
  have htext := hbehind.of_infix (List.prefix_append _ [';']).isInfix
  have hbalanced : Balanced (' ' :: s ++ b) := h.balanced.between (a := [' ']) (by decide) hround
  exact ⟨⟨hbehind.closed, htext.settles hbalanced⟩, htext.lex⟩

/-- No sign stands in a text that has not got it. -/
theorem not_mem_between (h : s.Plain signs) {b : Text} (hb : ∀ c ∈ b, isMild c = true) {c : Char}
    (hc : c ∉ ' ' :: signs) (hletter : c.isAlphanum = false) (hmild : isMild c = false) :
    c ∉ ' ' :: s ++ b := by
  rw [List.mem_append, List.mem_cons]
  rintro ((rfl | hmem) | hmem)
  · exact hc (by simp)
  · rcases h.chars c hmem with halnum | hsign
    · exact ne_of_class halnum hletter rfl
    · exact hc (List.mem_cons_of_mem _ hsign)
  · exact ne_of_class (hb c hmem) hmild rfl

end Text.Plain

theorem not_isDigit_of_isAlpha {c : Char} (h : c.isAlpha = true) : c.isDigit = false := by
  rw [Bool.eq_false_iff]
  intro hdigit
  unfold Char.isAlpha Char.isUpper Char.isLower at h
  simp only [Char.isDigit, Bool.or_eq_true, Bool.and_eq_true, decide_eq_true_eq, ge_iff_le,
    UInt32.le_iff_toNat_le] at h hdigit
  rcases h with h | h
  · exact absurd (Nat.le_trans h.1 hdigit.2) (by decide)
  · exact absurd (Nat.le_trans h.1 hdigit.2) (by decide)

theorem isSpace_of_isAlpha {c : Char} (h : c.isAlpha = true) : isSpace c = false := by
  have hne {d : Char} (hd : d.isAlpha = false) : c ≠ d := ne_of_class h hd
  simp only [isSpace, hne (d := ' ') (by decide), hne (d := '\t') (by decide),
    hne (d := '\n') (by decide), hne (d := '\r') (by decide), hne (d := '\x0c') (by decide)]
  rfl

/-- The name of a property behind a blank. -/
theorem lex_property {p : Text} (h : ∀ c ∈ p, c.isAlpha = true ∨ c = '-')
    (hbegins : ∃ c ∈ p.head?, c.isAlpha = true) :
    lex (' ' :: p) = [⟨.space, [' ']⟩, ⟨.ident p, p⟩] := by
  obtain ⟨c, hc, hletter⟩ := hbegins
  obtain ⟨s, rfl⟩ := List.head?_eq_some_iff.mp hc
  have hne {d : Char} (hd : d.isAlpha = false) : c ≠ d := ne_of_class hletter hd
  have hspace : isSpace c = false := isSpace_of_isAlpha hletter
  have hnumber : startsNumber (c :: s) = false := by
    simp only [startsNumber, not_isDigit_of_isAlpha hletter, hne (d := '.') (by decide),
      hne (d := '+') (by decide), hne (d := '-') (by decide)]
    rfl
  have hstart : startsName (c :: s) = true := by
    simp [startsName, hne (d := '\\') (by decide), hne (d := '-') (by decide), isNameStart, hletter]
  have hname : name (c :: s) = (c :: s, s.length + 1) := by
    have hall : (c :: s).takeWhile isNameChar = c :: s := by
      rw [List.takeWhile_eq_self_iff]
      intro d hd
      rcases h d hd with hd | rfl
      · simp [isNameChar, isNameStart, hd]
      · decide
    have hplain : ∀ d ∈ c :: s, isPlain d = true := by
      intro d hd
      rcases h d hd with hd | rfl
      · simp [isPlain, Char.isAlphanum, hd]
      · decide
    rw [name_eq hplain, hall, List.length_cons]
  have hscan : scan c s = (.ident (c :: s), s.length) := by
    simp only [scan, hspace, hnumber, hne (d := '-') (by decide), hstart, nameLike, hname]
    simp
  rw [lex_space (by decide), List.takeWhile_cons_of_neg (by simp [hspace]),
    List.dropWhile_cons_of_neg (by simp [hspace]), lex_cons, hscan, List.take_length,
    List.drop_length]
  rfl

/-- What stands behind a value: the annotation, and the blank in front of a brace. -/
theorem mild_behind {important : Bool} {tail : Text} (htail : tail ∈ [[], [' ']]) :
    ∀ c ∈ (if important then " !important".toList else []) ++ tail, isMild c = true := by
  simp only [List.mem_cons, List.not_mem_nil, or_false] at htail
  rcases htail with rfl | rfl <;> cases important <;> decide

/-- No token is a semicolon unless the text has one. -/
theorem isSemicolon_eq_false_of_not_mem {s : Text} (hs : ∀ t ∈ lex s, PlainToken t) (h : ';' ∉ s) :
    ∀ t ∈ lex s, t.isSemicolon = false := by
  intro t ht
  rw [Bool.eq_false_iff]
  intro hkind
  have hmem := (hs t ht).mem_text (.inl rfl) (of_decide_eq_true hkind)
  exact h (PlainText.mem_of_mem_lex ht hmem)

theorem Declaration.Plain.readable {d : Declaration} (h : d.Plain) : d.Readable := by
  have hsigns : ∀ c ∈ valueSigns, isPlain c = true := by decide
  have htidy : d.value.Tidy := h.value.tidy (by decide)
  have hvalue (tail : Text) (htail : tail ∈ [[], [' ']]) :
      Settled (d.valueText ++ tail) ∧ ∀ t ∈ lex (d.valueText ++ tail), PlainToken t := by
    rw [Declaration.valueText, List.append_assoc]
    exact h.value.between hsigns (mild_behind htail)
  have hsemicolon (tail : Text) (htail : tail ∈ [[], [' ']]) : ';' ∉ d.valueText ++ tail := by
    rw [Declaration.valueText, List.append_assoc]
    exact h.value.not_mem_between (mild_behind htail) (by decide) (by decide) (by decide)
  refine ⟨⟨lex_property h.property h.begins, ?_, fun tail htail => (hvalue tail htail).1.closed, ?_⟩, ?_⟩
  · have hplain : ∀ c ∈ ' ' :: d.property ++ [';'], isPlain c = true ∧ c ≠ '(' := by
      rw [List.forall_mem_append, List.forall_mem_cons]
      refine ⟨⟨by decide, fun c hc => ?_⟩, by decide⟩
      rcases h.property c hc with hletter | rfl
      · exact ⟨by simp [isPlain, Char.isAlphanum, hletter], ne_of_class hletter (by decide)⟩
      · decide
    exact (PlainText.of_not_mem (fun c hc => (hplain c hc).1) fun hmem => (hplain _ hmem).2 rfl).closed
  · intro tail htail
    obtain ⟨hsettled, htokens⟩ := hvalue tail htail
    exact .of_forall hsettled.settles
      (isSemicolon_eq_false_of_not_mem htokens (hsemicolon tail htail))
  · refine Declaration.splitImportant_valueText ⟨htidy, fun _ hannotated => ?_⟩
    have hmem := hannotated.mem
    rcases h.value.chars _ hmem with hletter | hsign
    · exact ne_of_class hletter (d := '!') (by decide) rfl
    · exact absurd hsign (by decide)

theorem startsCustomProperty_eq_false {ts : List Token} (h : ∀ t ∈ ts, t.kind ≠ .colon) :
    startsCustomProperty ts = false := by
  have hgaps {us : List Token} (hus : us <:+ ts) : skipGaps us <:+ ts :=
    (List.dropWhile_suffix _).trans hus
  rw [startsCustomProperty]
  split
  · next name text rest heq =>
    have hrest : rest <:+ ts :=
      (List.suffix_cons _ rest).trans (heq ▸ hgaps (List.suffix_refl ts))
    cases hnext : skipGaps rest with
    | nil => simp
    | cons t us =>
      have hcolon := h t ((hnext ▸ hgaps hrest).subset (by simp))
      simp [hcolon]
  · rfl

theorem Text.balanced_of_not_mem {s : Text} (h : ∀ c ∈ s, c ≠ '(' ∧ c ≠ ')') : s.Balanced :=
  ⟨opensFirst_of_not_mem fun hmem => (h ')' hmem).2 rfl, surplus_eq_zero h⟩

namespace Rule.Plain

variable {r : Rule} (h : r.Plain)
include h

theorem ne_of_mem_selector {c : Char} (hc : c ∈ r.selector) (d : Char) (hd : d.isAlphanum = false)
    (hsign : d ∉ ['.', '-', '_', ',', ' ']) : c ≠ d := by
  rcases h.selector c hc with hletter | hmem
  · exact ne_of_class hletter hd
  · exact fun heq => hsign (heq ▸ hmem)

theorem not_round_of_mem_selector : ∀ c ∈ r.selector ++ [' '], c ≠ '(' ∧ c ≠ ')' := by
  rw [List.forall_mem_append]
  refine ⟨fun c hc => ?_, by decide⟩
  exact ⟨h.ne_of_mem_selector hc '(' (by decide) (by decide),
    h.ne_of_mem_selector hc ')' (by decide) (by decide)⟩

theorem selector_plainText : PlainText (r.selector ++ [' '] ++ [';']) := by
  refine .of_not_mem ?_ fun hmem => ?_
  · rw [List.forall_mem_append, List.forall_mem_append]
    refine ⟨⟨fun c hc => ?_, by decide⟩, by decide⟩
    rcases h.selector c hc with hletter | hmem
    · simp [isPlain, hletter]
    · exact (by decide : ∀ c ∈ ['.', '-', '_', ',', ' '], isPlain c = true) c hmem
  · rcases List.mem_append.mp hmem with hmem | hmem
    · exact (h.not_round_of_mem_selector _ hmem).1 rfl
    · exact absurd hmem (by decide)

theorem selector_lex : ∀ t ∈ lex (r.selector ++ [' ']), PlainToken t :=
  (h.selector_plainText.of_infix (List.prefix_append _ [';']).isInfix).lex

/-- A letter or a dot makes a token that begins a rule. -/
theorem selector_begins : ∃ t ts, lex (r.selector ++ [' ']) = t :: ts ∧ t.isFiller = false ∧
    ∀ name, t.kind ≠ .atKeyword name := by
  obtain ⟨c, hc, hbegins⟩ := h.begins
  obtain ⟨s, hs⟩ := List.head?_eq_some_iff.mp hc
  have hlex : lex (r.selector ++ [' ']) = ⟨(scan c (s ++ [' '])).1,
      c :: (s ++ [' ']).take (scan c (s ++ [' '])).2⟩ :: lex ((s ++ [' ']).drop (scan c (s ++ [' '])).2) := by
    rw [hs, List.cons_append, lex_cons]
  have htoken := (h.selector_lex _ (by rw [hlex]; exact List.mem_cons_self)).begins
  refine ⟨_, _, hlex, htoken ?_ (List.cons_ne_nil _ _)⟩
  intro d hd
  rw [List.head?_cons, Option.mem_some_iff] at hd
  rw [← hd]
  rcases hbegins with hletter | rfl
  · exact isSpace_of_isAlpha hletter
  · decide

theorem selector_noCustomProperty : startsCustomProperty (lex (r.selector ++ [' '])) = false := by
  refine startsCustomProperty_eq_false fun t ht hkind => ?_
  have hmem := PlainText.mem_of_mem_lex ht ((h.selector_lex t ht).mem_text (.inr rfl) hkind)
  rcases List.mem_append.mp hmem with hmem | hmem
  · exact h.ne_of_mem_selector hmem ':' (by decide) (by decide) rfl
  · exact absurd hmem (by decide)

theorem selector_tidy : r.selector.Tidy := by
  refine Text.tidy_of_chars h.selector (by decide) (fun hspace => ?_) h.stop
  obtain ⟨c, hc, hbegins⟩ := h.begins
  rw [hspace] at hc
  cases hc
  exact absurd hbegins (by decide)

theorem readable : r.Readable := by
  have hselector := h.selector_plainText.of_infix (List.prefix_append _ [';']).isInfix
  have hquery (q : Text) (hq : q ∈ r.media) :=
    (h.query q hq).between (b := [' ']) (by decide) (by decide)
  have hsemicolon (q : Text) (hq : q ∈ r.media) : ';' ∉ ' ' :: q ++ [' '] :=
    (h.query q hq).not_mem_between (b := [' ']) (by decide) (by decide) (by decide) (by decide)
  have hreadable (d : Declaration) (hd : d ∈ r.declarations) := (h.declarations d hd).readable
  refine ⟨⟨h.selector_plainText.closed, ?_, h.selector_begins, h.selector_noCustomProperty,
    fun q hq => (hquery q hq).1.closed, ?_, fun d hd => (hreadable d hd).toDelimited⟩,
    h.selector_tidy, fun q hq => (h.query q hq).tidy (by decide),
    fun d hd => (hreadable d hd).value_split⟩
  · refine .of_forall (hselector.settles (Text.balanced_of_not_mem h.not_round_of_mem_selector)) ?_
    exact fun t ht => (h.selector_lex t ht).opensBody
  · intro q hq
    obtain ⟨hsettled, htokens⟩ := hquery q hq
    refine .of_forall hsettled.settles fun t ht => ?_
    rw [(htokens t ht).opensBody, Bool.or_false]
    exact isSemicolon_eq_false_of_not_mem htokens (hsemicolon q hq) t ht

end Rule.Plain

namespace Stylesheet

/-- A sheet of plain texts is read as it was before it was written. -/
theorem read_render_plain {s : Stylesheet} (h : ∀ r ∈ s.rules, r.Plain) : read s.render = s :=
  read_render fun r hr => (h r hr).readable

/-- Rules at the margin and under two queries, one of them without declarations, with an empty value
and brackets inside brackets. -/
def mixedSheet : Stylesheet :=
  ⟨[⟨".a, b-c".toList, [⟨"color".toList, "ref(.b, width, rgb(0, (1), 2))".toList, true⟩,
        ⟨"margin".toList, [], false⟩, ⟨"border".toList, [], true⟩], none⟩,
    ⟨".b".toList, [], some "print and (min-width: 10px)".toList⟩,
    ⟨"h1".toList, [⟨"width".toList, "50%".toList, false⟩], some "print and (min-width: 10px)".toList⟩,
    ⟨".c_d".toList, [⟨"color".toList, "#fff".toList, false⟩], some [] ⟩,
    ⟨".a".toList, [⟨"grid-area".toList, "a - b".toList, false⟩], none⟩]⟩

theorem read_render_mixedSheet :
    (∀ r ∈ mixedSheet.rules, r.Plain) ∧ read mixedSheet.render = mixedSheet := by
  have h : ∀ r ∈ mixedSheet.rules, r.Plain := by decide +kernel
  exact ⟨h, read_render_plain h⟩

end Stylesheet

end StyleRef

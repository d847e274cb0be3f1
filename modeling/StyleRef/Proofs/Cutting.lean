import StyleRef.Css.Lexer

/-
# Where a text may be cut

The tokens of two texts in a row are in general not the tokens of the one and
then those of the other: a name goes on, a string or a comment is still open, a
backslash takes the next character.  They are when the second text begins with
a *mark*, one of the characters `;`, `:`, `{` and `}` that stand for themselves,
and the first text is *closed*: a semicolon put behind it is a token of its own.

That one test with a semicolon is enough for every text that may follow.  No
scanner that stops in front of a mark asks which mark it is, or what comes after
it (`scan_append`).  Main statement: `Closed.lex_append`.
-/

namespace StyleRef

namespace Css

/-! ## Marks -/

/-- The characters that are no part of a name, a number or white space, and that no scanner puts
together with what stands before them. -/
def isMark (c : Char) : Bool := c = ';' || c = ':' || c = '{' || c = '}'

def Marked (r : Text) : Prop := ∀ c ∈ r.head?, isMark c = true

@[simp] theorem marked_nil : Marked [] := by simp [Marked]

@[simp] theorem marked_cons {c : Char} {r : Text} : Marked (c :: r) ↔ isMark c = true := by
  simp [Marked]

/-- What is true of the four marks is true of every mark. -/
theorem forall_isMark {p : Char → Prop} :
    (∀ c, isMark c = true → p c) ↔ p ';' ∧ p ':' ∧ p '{' ∧ p '}' := by
  simp only [isMark, Bool.or_eq_true, decide_eq_true_eq]
  constructor
  · intro h
    exact ⟨h _ (by simp), h _ (by simp), h _ (by simp), h _ (by simp)⟩
  · rintro ⟨h₁, h₂, h₃, h₄⟩ c (((rfl | rfl) | rfl) | rfl)
    · exact h₁
    · exact h₂
    · exact h₃
    · exact h₄

def Unmarked (p : Char → Bool) : Prop := ∀ c, isMark c = true → p c = false

theorem unmarked_of {p : Char → Bool}
    (h : p ';' = false ∧ p ':' = false ∧ p '{' = false ∧ p '}' = false) : Unmarked p :=
  forall_isMark.mpr h

theorem unmarked_isSpace : Unmarked isSpace := unmarked_of (by decide)
theorem unmarked_isNewline : Unmarked isNewline := unmarked_of (by decide)
theorem unmarked_isHexDigit : Unmarked isHexDigit := unmarked_of (by decide)
theorem unmarked_isDigit : Unmarked Char.isDigit := unmarked_of (by decide)
theorem unmarked_isNameStart : Unmarked isNameStart := unmarked_of (by decide)
theorem unmarked_isNameChar : Unmarked isNameChar := unmarked_of (by decide)

section Ahead
variable {p : Char → Bool} {r : Text} (hp : Unmarked p) (hr : Marked r)
include hp hr

theorem startsWith_append (s : Text) : startsWith p (s ++ r) = startsWith p s := by
  cases s with
  | cons c s => rfl
  | nil =>
    cases r with
    | nil => rfl
    | cons d r => simpa [startsWith] using hp d (marked_cons.mp hr)

theorem takeWhile_append (s : Text) : (s ++ r).takeWhile p = s.takeWhile p := by
  induction s with
  | nil =>
    cases r with
    | nil => rfl
    | cons d r => simp [List.takeWhile, hp d (marked_cons.mp hr)]
  | cons c s ih => by_cases h : p c = true <;> simp [List.takeWhile, h, ih]

theorem dropWhile_append (s : Text) : (s ++ r).dropWhile p = s.dropWhile p ++ r := by
  induction s with
  | nil =>
    cases r with
    | nil => rfl
    | cons d r => simp [List.dropWhile, hp d (marked_cons.mp hr)]
  | cons c s ih => by_cases h : p c = true <;> simp [List.dropWhile, h, ih]

end Ahead

section Scanners
variable {r : Text} (hr : Marked r)
include hr

/-! ## Names -/

theorem spaceLength_append (s : Text) : spaceLength (s ++ r) = spaceLength s := by
  have hnone : ∀ t : Text, Marked t → spaceLength t = 0 := by
    intro t ht
    cases t with
    | nil => rfl
    | cons c t =>
      have h := marked_cons.mp ht
      have hspace := unmarked_isSpace c h
      have hreturn : c ≠ '\r' := by rintro rfl; simp [isMark] at h
      simp [spaceLength, hspace, hreturn]
  match s with
  | [] => exact hnone r hr
  | [c] =>
    cases r with
    | nil => rfl
    | cons d r =>
      have hline : d ≠ '\n' := by
        rintro rfl
        simp [isMark] at hr
      by_cases hc : c = '\r' <;> simp [spaceLength, hc, hline]
  | c :: d :: s =>
    by_cases hc : c = '\r' <;> by_cases hd : d = '\n' <;> simp [spaceLength, hc, hd]

omit hr in
theorem marked_take (hr : Marked r) (n : Nat) : Marked (r.take n) := by
  cases n with
  | zero => exact marked_nil
  | succ n =>
    cases r with
    | nil => exact marked_nil
    | cons c r => exact marked_cons.mpr (marked_cons.mp hr)

/-- What an escape means does not depend on what follows the text, as long as there is a character
behind the backslash. -/
theorem escape_append {s : Text} (hs : s ≠ []) : escape (s ++ r) = escape s := by
  cases s with
  | nil => exact absurd rfl hs
  | cons c s =>
    have htake : ((c :: (s ++ r)).take 6).takeWhile isHexDigit =
        ((c :: s).take 6).takeWhile isHexDigit := by
      rw [← List.cons_append, List.take_append]
      exact takeWhile_append unmarked_isHexDigit (marked_take hr _) _
    have hle : (((c :: s).take 6).takeWhile isHexDigit).length ≤ (c :: s).length :=
      Nat.le_trans (List.takeWhile_prefix _).length_le (List.length_take_le' _ _)
    simp only [escape, List.cons_append, htake]
    rw [← List.cons_append, List.drop_append_of_le_length hle, spaceLength_append hr]

theorem nameChar?_append {c : Char} {s : Text} (h : ¬(c = '\\' ∧ s = [])) :
    nameChar? (c :: (s ++ r)) = nameChar? (c :: s) := by
  simp only [nameChar?, startsWith_append unmarked_isNewline hr]
  by_cases hc : c = '\\'
  · rw [escape_append hr fun hs => h ⟨hc, hs⟩]
  · simp [hc]

/-- A name that ends before a semicolon ends there whatever follows. -/
theorem nameFrom_append {skip : Nat} {s : Text}
    (h : (nameFrom skip (s ++ [';'])).2 ≤ s.length) :
    nameFrom skip (s ++ r) = nameFrom skip (s ++ [';']) := by
  induction s generalizing skip with
  | nil =>
    cases skip with
    | succ skip => simp [nameFrom] at h
    | zero =>
      cases r with
      | nil => rfl
      | cons d r =>
        have hd := marked_cons.mp hr
        have hname := unmarked_isNameChar d hd
        have hother : d ≠ '\\' ∧ d ≠ '\x00' :=
          ⟨by rintro rfl; simp [isMark] at hd, by rintro rfl; simp [isMark] at hd⟩
        simp [nameFrom, nameChar?, hother, hname]
        decide
  | cons c s ih =>
    cases skip with
    | succ skip =>
      simp only [List.cons_append, nameFrom, List.length_cons, Nat.add_le_add_iff_right] at h ⊢
      rw [ih h]
    | zero =>
      have hsemi : Marked [';'] := by simp [isMark]
      have hescape : ¬(c = '\\' ∧ s = []) := by
        rintro ⟨rfl, rfl⟩
        revert h
        decide
      simp only [List.cons_append, nameFrom, nameChar?_append hr hescape,
        nameChar?_append hsemi hescape] at h ⊢
      cases hchar : nameChar? (c :: s) with
      | none => rfl
      | some x =>
        obtain ⟨d, k⟩ := x
        simp only [hchar] at h ⊢
        rw [ih (Nat.le_of_succ_le_succ h)]

theorem startsName_append (s : Text) : startsName (s ++ r) = startsName s := by
  match s with
  | [] =>
    cases r with
    | nil => rfl
    | cons d r =>
      have hd := marked_cons.mp hr
      have hother : d ≠ '\\' ∧ d ≠ '-' :=
        ⟨by rintro rfl; simp [isMark] at hd, by rintro rfl; simp [isMark] at hd⟩
      simp [startsName, hother, unmarked_isNameStart d hd]
  | c :: s =>
    have hstart : Unmarked fun d => isNameStart d || d = '-' || d = '\\' :=
      unmarked_of (by decide)
    simp only [List.cons_append, startsName, startsWith_append unmarked_isNewline hr,
      startsWith_append hstart hr]

/-! ## Strings, comments and addresses -/

/-- How much an escape in a string or an address takes. -/
theorem skip_append {c : Char} {s : Text} (h : ¬(c = '\\' ∧ s = [])) :
    (if c ≠ '\\' then 0 else if startsWith isNewline (s ++ r) then spaceLength (s ++ r)
      else (escape (s ++ r)).2) =
    if c ≠ '\\' then 0 else if startsWith isNewline s then spaceLength s else (escape s).2 := by
  by_cases hc : c = '\\'
  · rw [startsWith_append unmarked_isNewline hr, spaceLength_append hr,
      escape_append hr fun hs => h ⟨hc, hs⟩]
  · simp [hc]

theorem stringFrom_append {quote : Char} {skip : Nat} {s : Text}
    (h : (stringFrom quote skip (s ++ [';'])).1 ≤ s.length) :
    stringFrom quote skip (s ++ r) = stringFrom quote skip (s ++ [';']) := by
  induction s generalizing skip with
  | nil =>
    cases skip with
    | zero =>
      by_cases hq : ';' = quote <;> simp [stringFrom, hq, isNewline] at h
    | succ skip => simp [stringFrom] at h
  | cons c s ih =>
    cases skip with
    | succ skip =>
      simp only [List.cons_append, stringFrom, List.length_cons, Nat.add_le_add_iff_right] at h ⊢
      rw [ih h]
    | zero =>
      have hsemi : Marked [';'] := by simp [isMark]
      simp only [List.cons_append, stringFrom] at h ⊢
      by_cases hq : c = quote
      · simp [hq]
      by_cases hn : isNewline c = true
      · simp [hq, hn]
      have hescape : ¬(c = '\\' ∧ s = []) := by
        rintro ⟨rfl, rfl⟩
        by_cases hq' : ';' = quote <;>
          simp [hq, isNewline, startsWith, escape, isHexDigit, stringFrom] at h
      simp only [hq, hn, skip_append hr hescape, skip_append hsemi hescape] at h ⊢
      rw [ih (Nat.le_of_succ_le_succ h)]

omit hr in
theorem commentLength_append (r : Text) {s : Text}
    (h : commentLength (s ++ [';']) ≤ s.length) :
    commentLength (s ++ r) = commentLength (s ++ [';']) := by
  induction s with
  | nil => simp [commentLength] at h
  | cons c s ih =>
    cases s with
    | nil => simp [commentLength] at h
    | cons d s =>
      by_cases hend : c = '*' ∧ d = '/'
      · obtain ⟨rfl, rfl⟩ := hend
        simp [commentLength]
      · have hstep (t : Text) :
            commentLength (c :: d :: s ++ t) = 1 + commentLength (d :: s ++ t) := by
          rw [List.cons_append, List.cons_append, commentLength]
          intro t' hc ht
          exact hend ⟨hc, (List.cons.inj ht).1⟩
        rw [hstep, List.length_cons] at h
        rw [hstep, hstep, ih (by omega)]

omit hr in
theorem spoiltLength_append (r : Text) {s : Text}
    (h : spoiltLength (s ++ [';']) ≤ s.length) :
    spoiltLength (s ++ r) = spoiltLength (s ++ [';']) := by
  fun_induction spoiltLength s with
  | case1 => simp [spoiltLength] at h
  | case2 => simp [spoiltLength]
  | case3 c s hc ih =>
    simp only [List.cons_append, spoiltLength, hc, ↓reduceIte, List.length_cons] at h ⊢
    rw [ih (by omega)]
  | case4 c s hc ih =>
    simp only [List.cons_append, spoiltLength, hc, Bool.false_eq_true, ↓reduceIte,
      List.length_cons] at h ih ⊢
    rw [ih (by omega)]
  | case5 c s hclose hback ih =>
    cases s with
    | nil =>
      by_cases hc : c = '\\'
      · subst hc
        simp [spoiltLength] at h
      · have hc' : c ≠ ')' := hclose
        rw [List.cons_append, spoiltLength] at h
        · simp [spoiltLength] at h
        · exact hclose
        · exact fun _ _ h₁ => absurd h₁ hc
    | cons d s =>
      have hstep (t : Text) :
          spoiltLength (c :: d :: s ++ t) = 1 + spoiltLength (d :: s ++ t) := by
        rw [List.cons_append, spoiltLength]
        · exact hclose
        · intro d' s' hc ht
          exact hback d s hc rfl
      rw [hstep, List.length_cons] at h
      rw [hstep, hstep, ih (by omega)]

/-- Behind a blank, an address ends or is spoilt. -/
theorem urlFrom_space_append {c : Char} (hc : isSpace c = true) {s : Text}
    (h : (urlFrom 0 (c :: s ++ [';'])).2 ≤ (c :: s).length) :
    urlFrom 0 (c :: s ++ r) = urlFrom 0 (c :: s ++ [';']) := by
  have hsemi : Marked [';'] := by simp [isMark]
  have hspaces : (s.takeWhile isSpace).length ≤ s.length := (List.takeWhile_prefix _).length_le
  simp only [List.cons_append, urlFrom, hc, ↓reduceIte, takeWhile_append unmarked_isSpace hr,
    takeWhile_append unmarked_isSpace hsemi, List.drop_append_of_le_length hspaces,
    List.length_cons] at h ⊢
  have hlength := congrArg List.length (List.take_append_drop (s.takeWhile isSpace).length s)
  rw [List.length_append, List.length_take_of_le hspaces] at hlength
  cases hdrop : s.drop (s.takeWhile isSpace).length with
  | nil =>
    rw [hdrop, List.length_nil] at hlength
    simp only [hdrop, List.nil_append, Char.reduceEq, ↓reduceIte] at h
    omega
  | cons d u =>
    rw [hdrop, List.length_cons] at hlength
    simp only [hdrop, List.cons_append] at h ⊢
    by_cases hd : d = ')'
    · simp [hd]
    · simp only [hd, ↓reduceIte] at h ⊢
      rw [spoiltLength_append r (by omega)]

theorem urlFrom_append {skip : Nat} {s : Text} (h : (urlFrom skip (s ++ [';'])).2 ≤ s.length) :
    urlFrom skip (s ++ r) = urlFrom skip (s ++ [';']) := by
  induction s generalizing skip with
  | nil => cases skip <;> simp [urlFrom, isSpace, isBarredFromUrl] at h
  | cons c s ih =>
    cases skip with
    | succ skip =>
      simp only [List.cons_append, urlFrom, List.length_cons, Nat.add_le_add_iff_right] at h ⊢
      rw [ih h]
    | zero =>
      by_cases hspace : isSpace c = true
      · exact urlFrom_space_append hr hspace h
      by_cases hclose : c = ')'
      · simp [urlFrom, hclose, isSpace]
      have hsemi : Marked [';'] := by simp [isMark]
      simp only [List.cons_append, urlFrom, hspace, hclose, startsWith_append unmarked_isNewline hr,
        startsWith_append unmarked_isNewline hsemi, Bool.false_eq_true, ↓reduceIte,
        List.length_cons] at h ⊢
      by_cases hbarred : (isBarredFromUrl c || (c = '\\' && startsWith isNewline s)) = true
      · simp only [hbarred, ↓reduceIte] at h ⊢
        rw [spoiltLength_append r (by omega)]
      have hescape : ¬(c = '\\' ∧ s = []) := by
        rintro ⟨rfl, rfl⟩
        simp [isBarredFromUrl, startsWith, escape, isHexDigit, urlFrom] at h
      have hskip (t : Text) (ht : Marked t) : (if c = '\\' then (escape (s ++ t)).2 else 0) =
          if c = '\\' then (escape s).2 else 0 := by
        by_cases hc : c = '\\'
        · rw [escape_append ht fun hs => hescape ⟨hc, hs⟩]
        · simp [hc]
      simp only [hbarred, hskip _ hr, hskip _ hsemi, Bool.false_eq_true, ↓reduceIte] at h ⊢
      rw [ih (by omega)]

theorem url?_append {s : Text} (h : ∀ x ∈ url? (s ++ [';']), x.2 ≤ s.length) :
    url? (s ++ r) = url? (s ++ [';']) := by
  have hsemi : Marked [';'] := by simp [isMark]
  have hquote : Unmarked fun c => c = '"' || c = '\'' := unmarked_of (by decide)
  have hspaces : (s.takeWhile isSpace).length ≤ s.length := (List.takeWhile_prefix _).length_le
  simp only [url?, takeWhile_append unmarked_isSpace hr, takeWhile_append unmarked_isSpace hsemi,
    List.drop_append_of_le_length hspaces, startsWith_append hquote hr,
    startsWith_append hquote hsemi] at h ⊢
  by_cases hq : startsWith (fun c => c = '"' || c = '\'')
      (s.drop (s.takeWhile isSpace).length) = true
  · simp [hq]
  · simp only [hq, Bool.false_eq_true, ↓reduceIte, Option.mem_def, Option.some.injEq,
      forall_eq'] at h ⊢
    rw [urlFrom_append hr (by rw [List.length_drop]; omega)]

theorem head?_append_eq_iff {c : Char} (hc : isMark c = false) (s : Text) :
    (s ++ r).head? = some c ↔ s.head? = some c := by
  cases s with
  | cons d s => rfl
  | nil =>
    cases r with
    | nil => rfl
    | cons d r =>
      have hd : d ≠ c := by
        rintro rfl
        rw [marked_cons.mp hr] at hc
        cases hc
      simp [hd]

theorem nameLike_append {s : Text} (h : (nameLike (s ++ [';'])).2 ≤ s.length) :
    nameLike (s ++ r) = nameLike (s ++ [';']) := by
  have hsemi : Marked [';'] := by simp [isMark]
  have hname : (name (s ++ [';'])).2 ≤ s.length := by
    refine Nat.le_trans ?_ h
    simp only [nameLike]
    split
    · split
      · exact Nat.le_add_right_of_le (Nat.le_add_right _ 1)
      · exact Nat.le_add_right _ 1
    · exact Nat.le_refl _
  have heq : name (s ++ r) = name (s ++ [';']) := nameFrom_append hr hname
  simp only [nameLike, heq] at h ⊢
  generalize name (s ++ [';']) = x at hname h ⊢
  obtain ⟨w, n⟩ := x
  simp only [List.drop_append_of_le_length hname, head?_append_eq_iff hr (c := '(') rfl,
    head?_append_eq_iff hsemi (c := '(') rfl] at h ⊢
  by_cases hopen : (s.drop n).head? = some '('
  · have hlt : n + 1 ≤ s.length := by
      have hne : s.drop n ≠ [] := by
        intro hnil
        rw [hnil] at hopen
        cases hopen
      have := List.length_pos_iff.mpr hne
      rw [List.length_drop] at this
      omega
    simp only [hopen, ↓reduceIte, List.drop_append_of_le_length hlt] at h ⊢
    by_cases hurl : Text.sameIgnoringCase w "url".toList = true
    · simp only [hurl, ↓reduceIte] at h ⊢
      rw [url?_append hr]
      intro x hx
      rw [Option.mem_def.mp hx] at h
      rw [List.length_drop]
      exact Nat.le_sub_of_add_le' h
    · simp only [hurl, Bool.false_eq_true, ↓reduceIte]
  · simp only [hopen, ↓reduceIte]

/-! ## Numbers -/

omit hr in
theorem length_pos_of_startsWith {p : Char → Bool} {s : Text} (h : startsWith p s = true) :
    0 < s.length := by
  cases s with
  | nil => cases h
  | cons c s => exact Nat.succ_pos _

theorem startsNumber_append (s : Text) : startsNumber (s ++ r) = startsNumber s := by
  have hpoint : Unmarked (· = '.') := unmarked_of (by decide)
  cases s with
  | nil =>
    cases r with
    | nil => rfl
    | cons d r =>
      have hd := marked_cons.mp hr
      have hother : d ≠ '.' ∧ d ≠ '+' ∧ d ≠ '-' :=
        ⟨by rintro rfl; simp [isMark] at hd, by rintro rfl; simp [isMark] at hd,
          by rintro rfl; simp [isMark] at hd⟩
      simp [startsNumber, hother, unmarked_isDigit d hd]
  | cons c s =>
    simp only [List.cons_append, startsNumber, startsWith_append unmarked_isDigit hr,
      startsWith_append hpoint hr]
    by_cases hs : startsWith (· = '.') s = true
    · rw [List.drop_append_of_le_length (length_pos_of_startsWith hs),
        startsWith_append unmarked_isDigit hr]
    · simp only [hs, Bool.false_and]

theorem digitCount_append (s : Text) : digitCount (s ++ r) = digitCount s := by
  rw [digitCount, takeWhile_append unmarked_isDigit hr, digitCount]

theorem fractionLength_append (s : Text) : fractionLength (s ++ r) = fractionLength s := by
  have hpoint : Unmarked (· = '.') := unmarked_of (by decide)
  simp only [fractionLength, startsWith_append hpoint hr]
  by_cases hs : startsWith (· = '.') s = true
  · rw [List.drop_append_of_le_length (length_pos_of_startsWith hs),
      startsWith_append unmarked_isDigit hr, digitCount_append hr]
  · simp only [hs, Bool.false_and, Bool.false_eq_true, ↓reduceIte]

theorem exponentLength_append (s : Text) : exponentLength (s ++ r) = exponentLength s := by
  have hletter : Unmarked fun c => c = 'e' || c = 'E' := unmarked_of (by decide)
  have hsign : Unmarked fun c => c = '+' || c = '-' := unmarked_of (by decide)
  simp only [exponentLength, startsWith_append hletter hr]
  by_cases hs : startsWith (fun c => c = 'e' || c = 'E') s = true
  · have hdrop : 1 ≤ s.length := length_pos_of_startsWith hs
    rw [List.drop_append_of_le_length hdrop, startsWith_append hsign hr]
    have hle : 1 + (if startsWith (fun c => c = '+' || c = '-') (s.drop 1) then 1 else 0) ≤
        s.length := by
      split
      · next h =>
        have := length_pos_of_startsWith h
        rw [List.length_drop] at this
        omega
      · exact hdrop
    rw [List.drop_append_of_le_length hle, digitCount_append hr]
  · simp only [hs, Bool.false_eq_true, ↓reduceIte]

omit hr in
theorem digitCount_le (s : Text) : digitCount s ≤ s.length := (List.takeWhile_prefix _).length_le

omit hr in
theorem fractionLength_le (s : Text) : fractionLength s ≤ s.length := by
  simp only [fractionLength]
  split
  · next h =>
    have hpos := length_pos_of_startsWith (Bool.and_eq_true_iff.mp h).1
    have := digitCount_le (s.drop 1)
    rw [List.length_drop] at this
    omega
  · exact Nat.zero_le _

omit hr in
theorem exponentLength_le (s : Text) : exponentLength s ≤ s.length := by
  simp only [exponentLength]
  split
  · generalize (if startsWith (fun c => c = '+' || c = '-') (s.drop 1) then 1 else 0) = n
    split
    · exact Nat.zero_le _
    · next h =>
      have := digitCount_le (s.drop (1 + n))
      rw [List.length_drop] at this
      omega
  · exact Nat.zero_le _

theorem numeric_append {s : Text} (h : (numeric (s ++ [';'])).2 ≤ s.length) :
    numeric (s ++ r) = numeric (s ++ [';']) := by
  have hsemi : Marked [';'] := by simp [isMark]
  have hsign : Unmarked fun c => c = '+' || c = '-' := unmarked_of (by decide)
  have hpercent : Unmarked (· = '%') := unmarked_of (by decide)
  simp only [numeric, startsWith_append hsign hr, startsWith_append hsign hsemi] at h ⊢
  have hsigned : (if startsWith (fun c => c = '+' || c = '-') s then 1 else 0) ≤ s.length := by
    split
    · next hs => exact length_pos_of_startsWith hs
    · exact Nat.zero_le _
  generalize (if startsWith (fun c => c = '+' || c = '-') s then 1 else 0) = m at hsigned h ⊢
  have hwhole : m + digitCount (s.drop m) ≤ s.length := by
    have := digitCount_le (s.drop m)
    rw [List.length_drop] at this
    omega
  simp only [List.drop_append_of_le_length hsigned, digitCount_append hr,
    digitCount_append hsemi] at h ⊢
  generalize m + digitCount (s.drop m) = whole at hwhole h ⊢
  have hfraction : whole + fractionLength (s.drop whole) ≤ s.length := by
    have := fractionLength_le (s.drop whole)
    rw [List.length_drop] at this
    omega
  simp only [List.drop_append_of_le_length hwhole, fractionLength_append hr,
    fractionLength_append hsemi] at h ⊢
  generalize fractionLength (s.drop whole) = fraction at hfraction h ⊢
  have hexponent : whole + fraction + exponentLength (s.drop (whole + fraction)) ≤ s.length := by
    have := exponentLength_le (s.drop (whole + fraction))
    rw [List.length_drop] at this
    omega
  simp only [List.drop_append_of_le_length hfraction, exponentLength_append hr,
    exponentLength_append hsemi] at h ⊢
  generalize exponentLength (s.drop (whole + fraction)) = exponent at hexponent h ⊢
  simp only [List.drop_append_of_le_length hexponent, startsWith_append hpercent hr,
    startsWith_append hpercent hsemi, startsName_append hr, startsName_append hsemi] at h ⊢
  by_cases hp : startsWith (· = '%') (s.drop (whole + fraction + exponent)) = true
  · simp only [hp, ↓reduceIte]
  by_cases hn : startsName (s.drop (whole + fraction + exponent)) = true
  · simp only [hp, hn, Bool.false_eq_true, ↓reduceIte] at h ⊢
    rw [name, nameFrom_append hr, name]
    rw [List.length_drop]
    exact Nat.le_sub_of_add_le' h
  · simp only [hp, hn, Bool.false_eq_true, ↓reduceIte]

/-! ## Tokens -/

theorem take_append_eq_iff {p : Text} (hp : ∀ c ∈ p, isMark c = false) (s : Text) :
    (s ++ r).take p.length = p ↔ s.take p.length = p := by
  rw [List.take_append]
  cases hrest : r.take (p.length - s.length) with
  | nil => rw [List.append_nil]
  | cons d u =>
    have hd : isMark d = true := by
      have := marked_take hr (p.length - s.length)
      rw [hrest] at this
      exact marked_cons.mp this
    constructor
    · intro h
      have hmem : d ∈ p := by rw [← h]; simp
      rw [hp d hmem] at hd
      cases hd
    · intro h
      have hlt : p.length - s.length ≠ 0 := by
        intro h0
        rw [h0] at hrest
        cases hrest
      have hlen := congrArg List.length h
      rw [List.length_take] at hlen
      omega

/-- A token of none of the larger classes that ends before a semicolon. -/
theorem sign_append {c : Char} {s : Text} (h : (sign c (s ++ [';'])).2 ≤ s.length) :
    sign c (s ++ r) = sign c (s ++ [';']) := by
  have hsemi : Marked [';'] := by simp [isMark]
  have hstar : Unmarked (· = '*') := unmarked_of (by decide)
  have hequals : Unmarked (· = '=') := unmarked_of (by decide)
  have hdigit : Unmarked fun d => d.isDigit || d = '-' := unmarked_of (by decide)
  have hcdo : ∀ d ∈ "!--".toList, isMark d = false := by decide
  have htake (t : Text) (ht : Marked t) :
      ((s ++ t).take 3 = "!--".toList) ↔ s.take 3 = "!--".toList :=
    take_append_eq_iff ht hcdo s
  simp only [sign, startsName_append hr, startsName_append hsemi, startsWith_append hdigit hr,
    startsWith_append hdigit hsemi, startsWith_append hstar hr, startsWith_append hstar hsemi,
    startsWith_append hequals hr, startsWith_append hequals hsemi, htake _ hr,
    htake _ hsemi] at h ⊢
  by_cases hquote : (c = '"' || c = '\'') = true
  · simp only [hquote, ↓reduceIte] at h ⊢
    rw [stringFrom_append hr h]
  by_cases hid : (c = '#' && startsName s) = true
  · simp only [hquote, hid, Bool.false_eq_true, ↓reduceIte] at h ⊢
    rw [name, nameFrom_append hr h, name]
  by_cases hhash : (c = '#' && startsWith (fun d => d.isDigit || d = '-') s) = true
  · simp only [hquote, hid, hhash, Bool.false_eq_true, ↓reduceIte] at h ⊢
    rw [name, nameFrom_append hr h, name]
  by_cases hat : (c = '@' && startsName s) = true
  · simp only [hquote, hid, hhash, hat, Bool.false_eq_true, ↓reduceIte] at h ⊢
    rw [name, nameFrom_append hr h, name]
  by_cases hcomment : (c = '/' && startsWith (· = '*') s) = true
  · simp only [hquote, hid, hhash, hat, hcomment, Bool.false_eq_true, ↓reduceIte] at h ⊢
    have hpos := length_pos_of_startsWith (Bool.and_eq_true_iff.mp hcomment).2
    rw [List.drop_append_of_le_length hpos] at h
    rw [List.drop_append_of_le_length hpos, List.drop_append_of_le_length hpos,
      commentLength_append r]
    rw [List.length_drop]
    omega
  · simp only [hquote, hid, hhash, hat, hcomment, Bool.false_eq_true, ↓reduceIte]

/-- A token that ends before a semicolon ends there before every mark, and at the end of the text. -/
theorem scan_append {c : Char} {s : Text} (h : (scan c (s ++ [';'])).2 ≤ s.length) :
    scan c (s ++ r) = scan c (s ++ [';']) := by
  have hsemi : Marked [';'] := by simp [isMark]
  have hcdc : ∀ d ∈ "->".toList, isMark d = false := by decide
  have htake (t : Text) (ht : Marked t) :
      ((s ++ t).take 2 = "->".toList) ↔ s.take 2 = "->".toList :=
    take_append_eq_iff ht hcdc s
  simp only [scan, ← List.cons_append, startsNumber_append hr, startsNumber_append hsemi,
    startsName_append hr, startsName_append hsemi, htake _ hr, htake _ hsemi,
    takeWhile_append unmarked_isSpace hr, takeWhile_append unmarked_isSpace hsemi] at h ⊢
  by_cases hspace : isSpace c = true
  · simp only [hspace, ↓reduceIte]
  by_cases hnumber : startsNumber (c :: s) = true
  · simp only [hspace, hnumber, Bool.false_eq_true, ↓reduceIte] at h ⊢
    rw [numeric_append hr]
    rw [List.length_cons]
    omega
  by_cases harrow : (c = '-' && decide (s.take 2 = "->".toList)) = true
  · simp only [hspace, hnumber, harrow, Bool.false_eq_true, ↓reduceIte]
  by_cases hname : startsName (c :: s) = true
  · simp only [hspace, hnumber, harrow, hname, Bool.false_eq_true, ↓reduceIte] at h ⊢
    rw [nameLike_append hr]
    rw [List.length_cons]
    omega
  · simp only [hspace, hnumber, harrow, hname, Bool.false_eq_true, ↓reduceIte] at h ⊢
    exact sign_append hr h

end Scanners

/-! ## Cutting -/

/-- The text ends where its last token ends: a semicolon put behind it is a token of its own. -/
def Closed (w : Text) : Prop := lex (w ++ [';']) = lex w ++ [⟨.semicolon, [';']⟩]

instance (w : Text) : Decidable (Closed w) := inferInstanceAs (Decidable (_ = _))

theorem lexFrom_append {r : Text} (hr : Marked r) {skip : Nat} {w : Text} (hskip : skip ≤ w.length)
    (h : lexFrom skip (w ++ [';']) = lexFrom skip w ++ [⟨.semicolon, [';']⟩]) :
    lexFrom skip (w ++ r) = lexFrom skip w ++ lex r := by
  induction w generalizing skip with
  | nil =>
    obtain rfl : skip = 0 := Nat.le_zero.mp hskip
    rfl
  | cons c w ih =>
    cases skip with
    | succ skip => exact ih (Nat.le_of_succ_le_succ hskip) h
    | zero =>
      simp only [List.cons_append, lexFrom, List.cons.injEq, Token.mk.injEq] at h ⊢
      obtain ⟨⟨-, htext⟩, htail⟩ := h
      -- the token ends inside the text, or it would have the semicolon in it
      have hle : (scan c (w ++ [';'])).2 ≤ w.length := by
        have hlen := congrArg List.length htext.2
        simp only [List.length_take, List.length_append, List.length_cons, List.length_nil] at hlen
        omega
      have hend := scan_append marked_nil hle
      rw [List.append_nil] at hend
      rw [hend] at htail ⊢
      rw [scan_append hr hle, List.take_append_of_le_length hle]
      exact ⟨⟨rfl, trivial, rfl⟩, ih hle htail⟩

/-- In front of a mark a closed text may be cut off. -/
theorem Closed.lex_append {w r : Text} (hw : Closed w) (hr : Marked r) :
    lex (w ++ r) = lex w ++ lex r :=
  lexFrom_append hr (Nat.zero_le _) hw

/-- A text is closed if no token of it would go on into a semicolon. -/
theorem closed_of_forall_scan {w : Text}
    (h : ∀ c s, c :: s <:+ w → (scan c (s ++ [';'])).2 ≤ s.length) : Closed w := by
  suffices ∀ skip ≤ w.length,
      lexFrom skip (w ++ [';']) = lexFrom skip w ++ [⟨.semicolon, [';']⟩] from
    this 0 (Nat.zero_le _)
  induction w with
  | nil =>
    intro skip hskip
    obtain rfl : skip = 0 := Nat.le_zero.mp hskip
    rfl
  | cons c w ih =>
    intro skip hskip
    have ih := ih fun d s hs => h d s (hs.trans (List.suffix_cons c w))
    cases skip with
    | succ skip => exact ih skip (Nat.le_of_succ_le_succ hskip)
    | zero =>
      have hle := h c w (List.suffix_refl _)
      have hend := scan_append marked_nil hle
      rw [List.append_nil] at hend
      simp only [List.cons_append, lexFrom, hend, List.take_append_of_le_length hle, ih _ hle]

theorem lex_mark {m : Char} (hm : isMark m = true) (s : Text) :
    lex (m :: s) = ⟨punctuation m, [m]⟩ :: lex s := by
  have h : scan m s = (punctuation m, 0) := by
    refine forall_isMark (p := fun m => scan m s = (punctuation m, 0)).mpr
      ⟨?_, ?_, ?_, ?_⟩ m hm <;>
      simp [scan, isSpace, startsNumber, startsName, isNameStart, sign]
  simp [lex, lexFrom, h]

/-- Two closed texts with a mark between them make a closed text. -/
theorem Closed.append_mark {w s : Text} {m : Char} (hw : Closed w) (hm : isMark m = true)
    (hs : Closed s) : Closed (w ++ m :: s) := by
  have hmark (t : Text) : Marked (m :: t) := marked_cons.mpr hm
  rw [Closed, List.append_assoc, List.cons_append, hw.lex_append (hmark _),
    hw.lex_append (hmark _), lex_mark hm, lex_mark hm, hs]
  simp

theorem closed_nil : Closed [] := rfl

/-! ## White space -/

theorem lexFrom_eq (skip : Nat) (s : Text) : lexFrom skip s = lex (s.drop skip) := by
  induction s generalizing skip with
  | nil => cases skip <;> rfl
  | cons c s ih =>
    cases skip with
    | zero => rfl
    | succ skip => exact ih skip

theorem lex_cons (c : Char) (s : Text) :
    lex (c :: s) = ⟨(scan c s).1, c :: s.take (scan c s).2⟩ :: lex (s.drop (scan c s).2) := by
  rw [← lexFrom_eq]
  rfl

theorem lex_space {c : Char} (hc : isSpace c = true) (s : Text) :
    lex (c :: s) = ⟨.space, c :: s.takeWhile isSpace⟩ :: lex (s.dropWhile isSpace) := by
  have htake : s.take (s.takeWhile isSpace).length = s.takeWhile isSpace := by
    have h := @List.take_left _ (s.takeWhile isSpace) (s.dropWhile isSpace)
    rwa [List.takeWhile_append_dropWhile] at h
  have hdrop : s.drop (s.takeWhile isSpace).length = s.dropWhile isSpace := by
    have h := @List.drop_left _ (s.takeWhile isSpace) (s.dropWhile isSpace)
    rwa [List.takeWhile_append_dropWhile] at h
  simp only [lex_cons, scan, hc, ↓reduceIte, htake, hdrop]

section Space
variable {p : Token → Bool} (hp : ∀ t : Token, t.isGap = true → p t = true)
include hp

theorem dropWhile_lex_dropWhile (s : Text) :
    (lex (s.dropWhile isSpace)).dropWhile p = (lex s).dropWhile p := by
  cases s with
  | nil => rfl
  | cons c s =>
    by_cases hc : isSpace c = true
    · rw [lex_space hc, List.dropWhile_cons_of_pos (hp _ rfl), List.dropWhile_cons_of_pos hc]
    · rw [List.dropWhile_cons_of_neg hc]

/-- White space at the front makes one token, or makes the first one longer. -/
theorem dropWhile_lex_append {ws : Text} (hws : ∀ c ∈ ws, isSpace c = true) (s : Text) :
    (lex (ws ++ s)).dropWhile p = (lex s).dropWhile p := by
  induction ws with
  | nil => rfl
  | cons c ws ih =>
    have ih := ih fun d hd => hws d (List.mem_cons_of_mem c hd)
    rw [← ih, ← dropWhile_lex_dropWhile hp, ← dropWhile_lex_dropWhile hp (ws ++ s),
      List.cons_append, List.dropWhile_cons_of_pos (hws c (by simp))]

end Space

theorem closed_cons_iff_of_space {c : Char} (hc : isSpace c = true) (s : Text) :
    Closed (c :: s) ↔ Closed (s.dropWhile isSpace) := by
  have hsemi : Marked [';'] := by simp [isMark]
  rw [Closed, List.cons_append, lex_space hc, lex_space hc,
    takeWhile_append unmarked_isSpace hsemi, dropWhile_append unmarked_isSpace hsemi,
    List.cons_append, List.cons.injEq]
  exact ⟨fun h => h.2, fun h => ⟨rfl, h⟩⟩

/-- White space in front of a closed text leaves it closed. -/
theorem Closed.space_cons {c : Char} (hc : isSpace c = true) {s : Text} (hs : Closed s) :
    Closed (c :: s) := by
  rw [closed_cons_iff_of_space hc]
  cases s with
  | nil => exact hs
  | cons d s =>
    by_cases hd : isSpace d = true
    · rw [List.dropWhile_cons_of_pos hd]
      exact (closed_cons_iff_of_space hd s).mp hs
    · rwa [List.dropWhile_cons_of_neg hd]

end Css

end StyleRef
